import ScriptWasm.Proofs.Tree.Expressions
import ScriptWasm.Proofs.Tree.Grammar

/-!
What the parsers of expressions answer is a tree of the grammar on the lexemes that they took. Each
layer of the grammar has its parser, and a parser that goes back to a looser layer does so on later
lexemes.
-/

namespace ScriptWasm

set_option autoImplicit false

/-- What a parser answers belongs to the lexemes that it took. -/
def Parser.Takes {Result : Type} (parser : Parser Result) (good : Result → List Lexeme → Prop) :
    Prop :=
  ∀ before after result, parser.run before = .ok (result, after) →
    ∃ taken, before.rest = taken ++ after.rest ∧ good result taken

def Parser.Level.layer : Parser.Level → Layer
  | expression => .disjunction
  | negation => .negation
  | signed => .signed

namespace Layer

def parser (parse : Parser.Level → Parser Tree) : Layer → Parser Tree
  | disjunction => Parser.disjunction parse
  | conjunction => Parser.conjunction parse
  | negation => Parser.negation parse
  | comparison => Parser.comparison parse
  | sum => Parser.sum parse
  | product => Parser.product parse
  | signed => Parser.signed parse
  | powered => Parser.powered parse
  | postfixed => Parser.postfixed parse
  | primary => Parser.primary parse

def operator : Layer → Parser (Option Tree)
  | disjunction => Parser.operatorWord "or"
  | conjunction => Parser.operatorWord "and"
  | comparison => Parser.comparisonOperator
  | sum => Parser.operatorAmong [.plus, .minus]
  | product => Parser.operatorAmong [.star, .slash, .floorDivide, .percent]
  | _ => return none

/-- A layer of operands that are joined from the left. -/
def IsChain (layer : Layer) : Prop :=
  layer ∈ [disjunction, conjunction, comparison, sum, product]

instance (layer : Layer) : Decidable layer.IsChain :=
  inferInstanceAs (Decidable (_ ∈ _))

end Layer

namespace Parser

theorem takes_next (stream : TokenStream) (kind : TokenKind) (isKind : stream.next.kind = kind)
    (going : kind ≠ .endOfFile) : stream.rest = [stream.next] ++ stream.past.rest :=
  stream.rest_of_next (by rwa [isKind])

section Operators

variable (before after : TokenStream) (sign : Tree)

theorem operator_word_takes (word : String)
    (run : (operatorWord word).run before = .ok (some sign, after)) :
    ∃ lexeme, before.rest = [lexeme] ++ after.rest ∧ lexeme.IsWord word ∧
      sign = .leaf .operator lexeme.span := by
  rw [operator_word_run] at run
  split at run
  · rename_i isWord
    cases run
    exact ⟨before.next, takes_next before .name isWord.1 (by decide), isWord, rfl⟩
  · cases run

theorem operator_among_takes (kinds : List TokenKind) (going : .endOfFile ∉ kinds)
    (run : (operatorAmong kinds).run before = .ok (some sign, after)) :
    ∃ lexeme, before.rest = [lexeme] ++ after.rest ∧ lexeme.kind ∈ kinds ∧
      sign = .leaf .operator lexeme.span := by
  rw [operator_among_run] at run
  split at run
  · rename_i member
    cases run
    refine ⟨before.next, takes_next before _ rfl ?_, member, rfl⟩
    intro isEnd
    exact going (isEnd ▸ member)
  · cases run

omit sign in
/-- Which operator of a comparison comes next, told by at most two lexemes. -/
theorem comparison_operator_run :
    comparisonOperator.run before =
      if before.next.kind ∈
          [TokenKind.equal, .notEqual, .less, .greater, .lessEqual, .greaterEqual] then
        .ok (some (.leaf .operator before.next.span), before.past)
      else if before.next.IsWord "in" then
        .ok (some (.leaf .operator before.next.span), before.past)
      else if before.next.IsWord "is" then
        if before.past.next.IsWord "not" then
          .ok (some (.leaf .operator (before.next.span.through before.past.next.span)),
            before.past.past)
        else .ok (some (.leaf .operator before.next.span), before.past)
      else if before.next.IsWord "not" then
        if before.past.next.IsWord "in" then
          .ok (some (.leaf .operator (before.next.span.through before.past.next.span)),
            before.past.past)
        else .error ⟨.notWithoutIn, before.past.next.span⟩
      else .ok (none, before) := by
  have atWordRun : ∀ (word : String) (stream : TokenStream),
      (atWord word).run stream = .ok (decide (stream.next.IsWord word), stream) := at_word_run
  have taken : ∀ (sign : Tree → Tree) (stream : TokenStream),
      (do return some (sign (← take .operator)) : Parser (Option Tree)).run stream =
        .ok (some (sign (.leaf .operator stream.next.span)), stream.past) := by
    intro sign stream
    rw [StateT.run_bind, take_run, ok_bind]
    rfl
  rw [comparisonOperator, StateT.run_bind, peek_run, ok_bind, List.contains_eq_mem]
  simp only [decide_eq_true_eq]
  split
  · exact taken id before
  simp only [StateT.run_bind, atWordRun, ok_bind, decide_eq_true_eq]
  split
  · exact taken id before
  simp only [StateT.run_bind, atWordRun, ok_bind, decide_eq_true_eq]
  split
  · simp only [StateT.run_bind, take_run, atWordRun, ok_bind, decide_eq_true_eq]
    split
    · exact taken (fun second => .leaf .operator (before.next.span.through second.span)) before.past
    · rfl
  simp only [StateT.run_bind, atWordRun, ok_bind, decide_eq_true_eq]
  split
  · simp only [StateT.run_bind, take_run, atWordRun, ok_bind, decide_eq_true_eq]
    split
    · exact taken (fun second => .leaf .operator (before.next.span.through second.span)) before.past
    · rw [StateT.run_bind, peek_run, ok_bind]
      rfl
  · rfl

theorem comparison_operator_takes
    (run : comparisonOperator.run before = .ok (some sign, after)) :
    ∃ taken, before.rest = taken ++ after.rest ∧ Layer.Joins .comparison sign taken := by
  have twoWords : ∀ first second, before.next.IsWord first → before.past.next.IsWord second →
      before.rest = [before.next, before.past.next] ++ before.past.past.rest := by
    intro first second isFirst isSecond
    rw [takes_next before .name isFirst.1 (by decide),
      takes_next before.past .name isSecond.1 (by decide)]
    rfl
  rw [comparison_operator_run] at run
  split at run
  · rename_i compares
    cases run
    refine ⟨[before.next], takes_next before _ rfl ?_, .compare before.next compares⟩
    intro isEnd
    rw [isEnd] at compares
    exact absurd compares (by decide)
  split at run
  · rename_i isIn
    cases run
    exact ⟨[before.next], takes_next before .name isIn.1 (by decide),
      .word before.next (Or.inr isIn)⟩
  split at run
  · rename_i isIs
    split at run
    · rename_i isNot
      cases run
      exact ⟨_, twoWords "is" "not" isIs isNot, .words _ _ (Or.inl ⟨isIs, isNot⟩)⟩
    · cases run
      exact ⟨[before.next], takes_next before .name isIs.1 (by decide),
        .word before.next (Or.inl isIs)⟩
  split at run
  · rename_i isNot
    split at run
    · rename_i isIn
      cases run
      exact ⟨_, twoWords "not" "in" isNot isIn, .words _ _ (Or.inr ⟨isNot, isIn⟩)⟩
    · cases run
  · cases run

theorem layer_operator_takes (layer : Layer)
    (run : layer.operator.run before = .ok (some sign, after)) :
    ∃ taken, before.rest = taken ++ after.rest ∧ layer.Joins sign taken := by
  cases layer with
  | disjunction =>
      obtain ⟨lexeme, taken, isWord, rfl⟩ := operator_word_takes before after sign "or" run
      exact ⟨[lexeme], taken, .or lexeme isWord⟩
  | conjunction =>
      obtain ⟨lexeme, taken, isWord, rfl⟩ := operator_word_takes before after sign "and" run
      exact ⟨[lexeme], taken, .and lexeme isWord⟩
  | comparison => exact comparison_operator_takes before after sign run
  | sum =>
      obtain ⟨lexeme, taken, adds, rfl⟩ := operator_among_takes before after sign _ (by decide) run
      exact ⟨[lexeme], taken, .add lexeme adds⟩
  | product =>
      obtain ⟨lexeme, taken, multiplies, rfl⟩ :=
        operator_among_takes before after sign _ (by decide) run
      exact ⟨[lexeme], taken, .multiply lexeme multiplies⟩
  | negation | signed | powered | postfixed | primary => cases run

/-- Where a layer has no operator, its parser of operators takes nothing. -/
theorem layer_operator_leaves (layer : Layer)
    (run : layer.operator.run before = .ok (none, after)) : after = before := by
  cases layer with
  | disjunction => exact operator_word_leaves "or" before after run
  | conjunction => exact operator_word_leaves "and" before after run
  | comparison => exact comparison_operator_leaves before after run
  | sum => exact operator_among_leaves _ before after run
  | product => exact operator_among_leaves _ before after run
  | negation | signed | powered | postfixed | primary =>
      cases run
      rfl

end Operators

section Steps

variable {good : Tree → List Lexeme → Prop}

theorem extend_up_to_takes (step : Tree → Parser (Option Tree))
    (steps : ∀ tree earlier before after larger, good tree earlier →
      (step tree).run before = .ok (some larger, after) →
      ∃ taken, before.rest = taken ++ after.rest ∧ good larger (earlier ++ taken))
    (stops : ∀ tree before after, (step tree).run before = .ok (none, after) → after = before)
    (count : Nat) (tree result : Tree) (earlier : List Lexeme) (start : good tree earlier)
    (before after : TokenStream)
    (run : (extendUpTo step count tree).run before = .ok (result, after)) :
    ∃ taken, before.rest = taken ++ after.rest ∧ good result (earlier ++ taken) := by
  induction count generalizing tree earlier before with
  | zero =>
      cases run
      exact ⟨[], rfl, by rwa [List.append_nil]⟩
  | succ count induction =>
      rw [extendUpTo, run_bind_succeeds_iff] at run
      obtain ⟨answer, middle, ran, run⟩ := run
      cases answer with
      | none =>
          cases run
          rw [stops _ before _ ran]
          exact ⟨[], rfl, by rwa [List.append_nil]⟩
      | some larger =>
          obtain ⟨first, split, good⟩ := steps tree earlier before middle larger start ran
          obtain ⟨rest, splitRest, goodRest⟩ := induction larger (earlier ++ first) good middle run
          exact ⟨first ++ rest, by rw [split, splitRest, List.append_assoc],
            by rwa [← List.append_assoc]⟩

theorem extended_takes (first : Parser Tree) (step : Tree → Parser (Option Tree))
    (firsts : Takes first good)
    (steps : ∀ tree earlier before after larger, good tree earlier →
      (step tree).run before = .ok (some larger, after) →
      ∃ taken, before.rest = taken ++ after.rest ∧ good larger (earlier ++ taken))
    (stops : ∀ tree before after, (step tree).run before = .ok (none, after) → after = before) :
    Takes (first >>= extended step) good := by
  intro before after result run
  rw [run_bind_succeeds_iff] at run
  obtain ⟨tree, middle, ran, run⟩ := run
  obtain ⟨taken, split, start⟩ := firsts before middle tree ran
  rw [extended, StateT.run_bind, remaining_run, ok_bind] at run
  obtain ⟨more, splitMore, whole⟩ := extend_up_to_takes step steps stops _ tree result taken start
    middle after run
  exact ⟨taken ++ more, by rw [split, splitMore, List.append_assoc], whole⟩

theorem listed_takes (item : Parser (List Tree)) (fits : List Tree → List Lexeme → Prop)
    (items : Takes item fits) (count : Nat) :
    Takes (parenthesized.listed item count) fun parts taken =>
      ∃ list, CommaList list parts taken ∧ ∀ entry ∈ list, fits entry.1 entry.2 := by
  induction count with
  | zero =>
      intro before after result run
      cases run
      exact ⟨[], rfl, [], .none, List.forall_mem_nil _⟩
  | succ count induction =>
      intro before after result run
      rw [parenthesized.listed, StateT.run_bind, peek_run, ok_bind] at run
      split at run
      · cases run
        exact ⟨[], rfl, [], .none, List.forall_mem_nil _⟩
      · rw [run_bind_succeeds_iff] at run
        obtain ⟨parts, middle, ran, run⟩ := run
        obtain ⟨taken, split, fit⟩ := items before middle parts ran
        rw [StateT.run_bind, take_if_run] at run
        split at run
        · rename_i isComma
          rw [ok_bind] at run
          simp only [run_bind_succeeds_iff, run_pure_succeeds_iff] at run
          obtain ⟨later, last, ranLater, rfl, rfl⟩ := run
          obtain ⟨others, splitLater, list, listed, fitLater⟩ := induction middle.past _ later
            ranLater
          refine ⟨taken ++ middle.next :: others, ?_, (parts, taken) :: list,
            .more parts taken middle.next list later others isComma listed, ?_⟩
          · rw [split, takes_next middle .comma isComma (by decide), splitLater]
            simp
          · intro entry member
            rcases List.mem_cons.mp member with rfl | there
            · exact fit
            · exact fitLater entry there
        · cases run
          refine ⟨taken, split, [(_, taken)], .last _ taken, ?_⟩
          intro entry member
          rw [List.mem_singleton.mp member]
          exact fit

/-- A list in parentheses with its opening and its closing one. -/
theorem parenthesized_takes (kind : NodeKind) (item : Parser (List Tree))
    (fits : List Tree → List Lexeme → Prop) (items : Takes item fits) :
    Takes (parenthesized kind item) fun tree taken =>
      ∃ opening parts inside closing list,
        tree = .branch kind (.leaf .punctuation opening.span :: parts ++
          [.leaf .punctuation closing.span]) ∧
        taken = opening :: inside ++ [closing] ∧ opening.kind = .leftParen ∧
        closing.kind = .rightParen ∧ CommaList list parts inside ∧
        ∀ entry ∈ list, fits entry.1 entry.2 := by
  intro before after tree run
  rw [parenthesized, run_bind_succeeds_iff] at run
  simp only [expect_succeeds_iff] at run
  obtain ⟨opening, _, ⟨opens, rfl, rfl⟩, run⟩ := run
  rw [StateT.run_bind, remaining_run, ok_bind] at run
  simp only [run_bind_succeeds_iff, expect_succeeds_iff, run_pure_succeeds_iff] at run
  obtain ⟨parts, middle, ran, _, _, ⟨closes, rfl, rfl⟩, rfl, rfl⟩ := run
  obtain ⟨inside, split, list, listed, fit⟩ := listed_takes item fits items _ before.past middle
    parts ran
  refine ⟨before.next :: inside ++ [middle.next], ?_, before.next, parts, inside, middle.next, list,
    rfl, rfl, opens, closes, listed, fit⟩
  rw [takes_next before .leftParen opens (by decide), split,
    takes_next middle .rightParen closes (by decide)]
  simp

end Steps

abbrev anyName : Lexeme → Prop :=
  fun _ => True

section Layers

variable (parse : Level → Parser Tree)
variable (goesBack : ∀ level : Level, Takes (parse level) (Grammar anyName level.layer))

include goesBack

theorem primary_takes : Takes (primary parse) (Grammar anyName .primary) := by
  intro before after tree run
  have next := takes_next before
  rw [primary, StateT.run_bind, peek_run, ok_bind] at run
  split at run
  · rename_i isName
    rw [take_run] at run
    cases run
    exact ⟨_, next .name isName (by decide), .name _ isName trivial⟩
  · rename_i isNumber
    rw [take_run] at run
    cases run
    exact ⟨_, next .number isNumber (by decide), .number _ isNumber⟩
  · rename_i isString
    rw [take_run] at run
    cases run
    exact ⟨_, next .string isString (by decide), .string _ isString⟩
  · rename_i isTrue
    rw [take_run] at run
    cases run
    exact ⟨_, next .trueWord isTrue (by decide), .boolean _ (List.mem_cons.mpr (Or.inl isTrue))⟩
  · rename_i isFalse
    rw [take_run] at run
    cases run
    exact ⟨_, next .falseWord isFalse (by decide),
      .boolean _ (List.mem_cons_of_mem _ (List.mem_singleton.mpr isFalse))⟩
  · rename_i isNone
    rw [take_run] at run
    cases run
    exact ⟨_, next .noneWord isNone (by decide), .noneWord _ isNone⟩
  · rename_i opens
    rw [StateT.run_bind, take_run, ok_bind] at run
    simp only [run_bind_succeeds_iff, expect_succeeds_iff, run_pure_succeeds_iff] at run
    obtain ⟨inner, middle, ran, _, _, ⟨closes, rfl, rfl⟩, rfl, rfl⟩ := run
    obtain ⟨inside, split, whole⟩ := goesBack .expression before.past middle inner ran
    refine ⟨before.next :: inside ++ [middle.next], ?_,
      .parenthesized before.next inner inside middle.next opens closes whole⟩
    rw [next .leftParen opens (by decide), split, takes_next middle .rightParen closes (by decide)]
    simp
  · exact absurd run (unexpected_fails _ _ _ _)

theorem arguments_takes : Takes (arguments parse) fun tree taken =>
    ∃ opening parts inside closing, ∃ items : List (Tree × List Lexeme),
      tree = .branch .argList (.leaf .punctuation opening.span :: parts ++
        [.leaf .punctuation closing.span]) ∧
      taken = opening :: inside ++ [closing] ∧ opening.kind = .leftParen ∧
      closing.kind = .rightParen ∧
      CommaList (items.map fun item => ([item.1], item.2)) parts inside ∧
      ∀ item ∈ items, Grammar anyName .disjunction item.1 item.2 := by
  intro before after tree run
  have single : Takes (do return [← parse .expression] : Parser (List Tree)) fun parts taken =>
      ∃ item, parts = [item] ∧ Grammar anyName .disjunction item taken := by
    intro start finish parts ran
    simp only [run_bind_succeeds_iff, run_pure_succeeds_iff] at ran
    obtain ⟨item, middle, ran, rfl, rfl⟩ := ran
    obtain ⟨taken, split, whole⟩ := goesBack .expression start _ item ran
    exact ⟨taken, split, item, rfl, whole⟩
  obtain ⟨taken, split, opening, parts, inside, closing, list, rfl, rfl, opens, closes, listed,
    fit⟩ := parenthesized_takes .argList _ _ single before after tree run
  have trees : ∃ items : List (Tree × List Lexeme),
      list = items.map (fun item => ([item.1], item.2)) ∧
        ∀ item ∈ items, Grammar anyName .disjunction item.1 item.2 := by
    clear listed
    induction list with
    | nil => exact ⟨[], rfl, List.forall_mem_nil _⟩
    | cons entry rest induction =>
        obtain ⟨items, rfl, whole⟩ := induction fun other member => fit other (by simp [member])
        obtain ⟨item, isItem, itemWhole⟩ := fit entry (by simp)
        refine ⟨(item, entry.2) :: items, by simp [← isItem], ?_⟩
        intro other member
        rcases List.mem_cons.mp member with rfl | there
        · exact itemWhole
        · exact whole other there
  obtain ⟨items, rfl, whole⟩ := trees
  exact ⟨_, split, opening, parts, inside, closing, items, rfl, rfl, opens, closes, listed, whole⟩

theorem postfixed_takes : Takes (postfixed parse) (Grammar anyName .postfixed) := by
  -- A primary comes first, then calls and attributes one after the other, then what is neither.
  apply extended_takes
  · intro before after tree run
    obtain ⟨taken, split, whole⟩ := primary_takes parse goesBack before after tree run
    exact ⟨taken, split, .tighter .postfixed tree taken whole⟩
  · intro value earlier before after larger whole run
    rw [StateT.run_bind, peek_run, ok_bind] at run
    split at run
    · simp only [run_bind_succeeds_iff, run_pure_succeeds_iff] at run
      obtain ⟨list, _, ran, same, rfl⟩ := run
      cases same
      obtain ⟨taken, split, opening, parts, inside, closing, items, rfl, rfl, opens, closes, listed,
        arguments⟩ := arguments_takes parse goesBack before _ list ran
      refine ⟨_, split, ?_⟩
      have call := Grammar.called value earlier opening items parts inside closing whole opens
        closes listed arguments
      rwa [List.append_assoc] at call
    · rename_i isDot
      rw [StateT.run_bind, take_run, ok_bind] at run
      simp only [run_bind_succeeds_iff, expect_name_succeeds_iff, run_pure_succeeds_iff] at run
      obtain ⟨_, _, ⟨isName, rfl, rfl⟩, same, rfl⟩ := run
      cases same
      refine ⟨[before.next, before.past.next], ?_,
        .member value earlier before.next before.past.next whole isDot isName⟩
      rw [takes_next before .dot isDot (by decide), takes_next before.past .name isName (by decide)]
      rfl
    · cases run
  · intro value before after run
    rw [StateT.run_bind, peek_run, ok_bind] at run
    split at run
    · simp only [run_bind_succeeds_iff, run_pure_succeeds_iff] at run
      obtain ⟨_, _, _, impossible, _⟩ := run
      cases impossible
    · rw [StateT.run_bind, take_run, ok_bind] at run
      simp only [run_bind_succeeds_iff, run_pure_succeeds_iff] at run
      obtain ⟨_, _, _, impossible, _⟩ := run
      cases impossible
    · cases run
      rfl

theorem powered_takes : Takes (powered parse) (Grammar anyName .powered) := by
  intro before after tree run
  rw [powered, run_bind_succeeds_iff] at run
  obtain ⟨base, middle, ran, run⟩ := run
  obtain ⟨first, split, whole⟩ := postfixed_takes parse goesBack before middle base ran
  rw [StateT.run_bind, take_if_run] at run
  split at run
  · rename_i isPower
    rw [ok_bind] at run
    simp only [run_bind_succeeds_iff, run_pure_succeeds_iff] at run
    obtain ⟨exponent, _, ranExponent, rfl, rfl⟩ := run
    obtain ⟨second, splitSecond, wholeSecond⟩ := goesBack .signed middle.past _ exponent ranExponent
    refine ⟨first ++ middle.next :: second, ?_,
      .raised base exponent first middle.next second whole isPower wholeSecond⟩
    rw [split, takes_next middle .power isPower (by decide), splitSecond]
    simp
  · cases run
    exact ⟨first, split, .tighter .powered _ first whole⟩

theorem signed_takes : Takes (signed parse) (Grammar anyName .signed) := by
  intro before after tree run
  rw [signed, run_bind_succeeds_iff] at run
  obtain ⟨answer, middle, ran, run⟩ := run
  cases answer with
  | none =>
      rw [operator_among_leaves _ before middle ran] at run
      obtain ⟨taken, split, whole⟩ := powered_takes parse goesBack before after tree run
      exact ⟨taken, split, .tighter .signed tree taken whole⟩
  | some sign =>
      obtain ⟨lexeme, split, isSign, rfl⟩ :=
        operator_among_takes before middle sign _ (by decide) ran
      simp only [run_bind_succeeds_iff, run_pure_succeeds_iff] at run
      obtain ⟨operand, _, ranOperand, rfl, rfl⟩ := run
      obtain ⟨taken, splitOperand, whole⟩ := goesBack .signed middle _ operand ranOperand
      exact ⟨lexeme :: taken, by rw [split, splitOperand]; rfl,
        .signed lexeme operand taken isSign whole⟩

omit goesBack in
theorem chain_takes (layer : Layer) (operand : Parser Tree)
    (operands : Takes operand (Grammar anyName layer.tighter)) :
    Takes (chain layer.operator operand) (Grammar anyName layer) := by
  apply extended_takes
  · intro before after tree run
    obtain ⟨taken, split, whole⟩ := operands before after tree run
    exact ⟨taken, split, .tighter layer tree taken whole⟩
  · intro left earlier before after larger whole run
    rw [run_bind_succeeds_iff] at run
    obtain ⟨answer, middle, ran, run⟩ := run
    cases answer with
    | none => cases run
    | some sign =>
        obtain ⟨signs, split, joins⟩ := layer_operator_takes before middle sign layer ran
        simp only [run_bind_succeeds_iff, run_pure_succeeds_iff] at run
        obtain ⟨right, _, ranRight, same, rfl⟩ := run
        cases same
        obtain ⟨taken, splitRight, wholeRight⟩ := operands middle _ right ranRight
        refine ⟨signs ++ taken, by rw [split, splitRight, List.append_assoc], ?_⟩
        rw [← List.append_assoc]
        exact .joined layer left sign right earlier signs taken whole joins wholeRight
  · intro left before after run
    rw [run_bind_succeeds_iff] at run
    obtain ⟨answer, middle, ran, run⟩ := run
    cases answer with
    | none =>
        cases run
        exact layer_operator_leaves before _ layer ran
    | some sign =>
        simp only [run_bind_succeeds_iff, run_pure_succeeds_iff] at run
        obtain ⟨_, _, _, impossible, _⟩ := run
        cases impossible

theorem comparison_takes : Takes (comparison parse) (Grammar anyName .comparison) :=
  chain_takes .comparison (sum parse) (chain_takes .sum (product parse)
    (chain_takes .product (signed parse) (signed_takes parse goesBack)))

theorem negation_takes : Takes (negation parse) (Grammar anyName .negation) := by
  intro before after tree run
  rw [negation, run_bind_succeeds_iff] at run
  obtain ⟨answer, middle, ran, run⟩ := run
  cases answer with
  | none =>
      rw [operator_word_leaves "not" before middle ran] at run
      obtain ⟨taken, split, whole⟩ := comparison_takes parse goesBack before after tree run
      exact ⟨taken, split, .tighter .negation tree taken whole⟩
  | some sign =>
      obtain ⟨lexeme, split, isNot, rfl⟩ := operator_word_takes before middle sign "not" ran
      simp only [run_bind_succeeds_iff, run_pure_succeeds_iff] at run
      obtain ⟨operand, _, ranOperand, rfl, rfl⟩ := run
      obtain ⟨taken, splitOperand, whole⟩ := goesBack .negation middle _ operand ranOperand
      exact ⟨lexeme :: taken, by rw [split, splitOperand]; rfl,
        .negated lexeme operand taken isNot whole⟩

theorem disjunction_takes : Takes (disjunction parse) (Grammar anyName .disjunction) :=
  chain_takes .disjunction (conjunction parse)
    (chain_takes .conjunction (negation parse) (negation_takes parse goesBack))

end Layers

theorem expression_up_to_takes (depth : Nat) (level : Level) :
    Takes (expressionUpTo depth level) (Grammar anyName level.layer) := by
  induction depth generalizing level with
  | zero =>
      intro before after tree run
      exact absurd run (unexpected_fails _ _ _ _)
  | succ depth induction =>
      cases level with
      | expression => exact disjunction_takes _ induction
      | negation => exact negation_takes _ induction
      | signed => exact signed_takes _ induction

/-- What is read as an expression is one, on the lexemes that were taken. -/
theorem expression_takes : Takes expression (Grammar anyName .disjunction) := by
  intro before after tree run
  rw [expression, StateT.run_bind, remaining_run, ok_bind] at run
  exact expression_up_to_takes _ .expression before after tree run

end Parser

end ScriptWasm
