import ScriptWasm.Proofs.Token.Columns
import ScriptWasm.Proofs.Tree.Lossless
import ScriptWasm.Proofs.Tree.Nesting

/-!
Blocks follow the layout. The statements of a block begin their lines, all at one column, which lies
further to the right than that of the block around it, and the words of the further arms of a
condition are back at the column of the block with the condition. Each parser keeps the open blocks
of the lexemes in step with the blocks it is in: expressions stay inside a line, a simple statement
ends its line, and a block takes its dedent together with its indent.
-/

namespace ScriptWasm

set_option autoImplicit false

open Layout (innermost)

/-- A tree in a block of the given column. -/
inductive Tree.FollowsLayout (source : List Char) : Nat → Tree → Prop where
  /-- The statements of a block, after its colon, begin their lines at one column further to the
  right. -/
  | body (outer inner : Nat) (span : Span) (colon : Tree) (statements : List Tree)
      (deeper : outer < inner)
      (begins : ∀ statement ∈ statements, BeginsLine source inner statement.span.start)
      (below : ∀ statement ∈ statements, FollowsLayout source inner statement) :
      FollowsLayout source outer (.node .body span (colon :: statements))
  /-- The words of a condition but the first begin their lines where the condition does. -/
  | cond (column : Nat) (span : Span) (first : Tree) (parts : List Tree)
      (begins : ∀ part ∈ parts, part.kind = .keyword → BeginsLine source column part.span.start)
      (below : ∀ part ∈ first :: parts, FollowsLayout source column part) :
      FollowsLayout source column (.node .ifStatement span (first :: parts))
  /-- Other nodes are in the block that their parts are in. -/
  | other (column : Nat) (kind : NodeKind) (span : Span) (parts : List Tree)
      (notBody : kind ≠ .body) (notCond : kind ≠ .ifStatement)
      (below : ∀ part ∈ parts, FollowsLayout source column part) :
      FollowsLayout source column (.node kind span parts)

namespace Tree

variable (source : List Char)

def HoldsNoBlock (tree : Tree) : Prop :=
  ∀ column, tree.FollowsLayout source column

theorem leaf_holds_no_block (kind : NodeKind) (span : Span)
    (plain : kind ≠ .body ∧ kind ≠ .ifStatement) : (Tree.leaf kind span).HoldsNoBlock source :=
  fun column => .other column kind span [] plain.1 plain.2 nofun

theorem branch_holds_no_block (kind : NodeKind) (parts : List Tree)
    (plain : kind ≠ .body ∧ kind ≠ .ifStatement)
    (below : ∀ part ∈ parts, part.HoldsNoBlock source) :
    (Tree.branch kind parts).HoldsNoBlock source :=
  fun column => .other column kind _ parts plain.1 plain.2 fun part member => below part member column

theorem branch_follows (column : Nat) (kind : NodeKind) (parts : List Tree)
    (plain : kind ≠ .body ∧ kind ≠ .ifStatement)
    (below : ∀ part ∈ parts, part.FollowsLayout source column) :
    (Tree.branch kind parts).FollowsLayout source column :=
  .other column kind _ parts plain.1 plain.2 below

/-- An expression holds no block, and it is no keyword. -/
theorem grammar_holds_no_block {names : Lexeme → Prop} {layer : Layer} {tree : Tree}
    {lexemes : List Lexeme} (whole : Grammar names layer tree lexemes) :
    tree.HoldsNoBlock source ∧ tree.kind ≠ .keyword := by
  have leaves : ∀ kind ∈ NodeKind.ofExpressionLeaves,
      (kind ≠ .body ∧ kind ≠ .ifStatement) ∧ kind ≠ .keyword := by decide
  have branches : ∀ kind ∈ NodeKind.ofExpressionBranches,
      (kind ≠ .body ∧ kind ≠ .ifStatement) ∧ kind ≠ .keyword := by decide
  refine grammar_holds (fun tree => tree.HoldsNoBlock source ∧ tree.kind ≠ .keyword) ?_ ?_ whole
  · intro kind known span
    exact ⟨leaf_holds_no_block source kind span (leaves kind known).1, (leaves kind known).2⟩
  · intro kind known parts below
    exact ⟨branch_holds_no_block source kind parts (branches kind known).1
      fun part member => (below part member).1, (branches kind known).2⟩

end Tree

/-- Trees without blocks on lexemes of one line. -/
structure OneLine (source : List Char) (trees : List Tree) (taken : List Lexeme) : Prop where
  content : ∀ lexeme ∈ taken, lexeme.kind.IsContent
  flat : ∀ tree ∈ trees, tree.HoldsNoBlock source

theorem is_content_of_leaf (kind : TokenKind) (free : kind ∉ leaflessKinds) : kind.IsContent := by
  simp only [leaflessKinds, List.mem_cons, List.not_mem_nil, or_false, not_or] at free
  exact ⟨free.1, free.2.1, free.2.2.1, free.2.2.2.2.1⟩

namespace OneLine

variable {source : List Char}

theorem nil : OneLine source [] [] :=
  ⟨nofun, nofun⟩

theorem append {trees others : List Tree} {taken more : List Lexeme}
    (first : OneLine source trees taken) (second : OneLine source others more) :
    OneLine source (trees ++ others) (taken ++ more) where
  content lexeme member := (List.mem_append.mp member).elim (first.content lexeme)
    (second.content lexeme)
  flat tree member := (List.mem_append.mp member).elim (first.flat tree) (second.flat tree)

theorem leaf (kind : NodeKind) (lexeme : Lexeme) (free : lexeme.kind ∉ leaflessKinds)
    (plain : kind ≠ .body ∧ kind ≠ .ifStatement) :
    OneLine source [.leaf kind lexeme.span] [lexeme] where
  content other member := by
    rw [List.mem_singleton.mp member]
    exact is_content_of_leaf _ free
  flat tree member := by
    rw [List.mem_singleton.mp member]
    exact Tree.leaf_holds_no_block source kind _ plain

theorem branch {trees : List Tree} {taken : List Lexeme} (kind : NodeKind)
    (plain : kind ≠ .body ∧ kind ≠ .ifStatement) (parts : OneLine source trees taken) :
    OneLine source [.branch kind trees] taken where
  content := parts.content
  flat tree member := by
    rw [List.mem_singleton.mp member]
    exact Tree.branch_holds_no_block source kind trees plain parts.flat

theorem of_grammar {names : Lexeme → Prop} {layer : Layer} {tree : Tree} {taken : List Lexeme}
    (whole : Grammar names layer tree taken) : OneLine source [tree] taken where
  content lexeme member :=
    is_content_of_leaf _ ((grammar_written whole).covered.kinds lexeme member)
  flat other member := by
    rw [List.mem_singleton.mp member]
    exact (Tree.grammar_holds_no_block source whole).1

end OneLine

theorem Cover.starts_first {leaf : Tree} {leaves : List Tree} {lexeme : Lexeme}
    {lexemes : List Lexeme} (cover : Cover (leaf :: leaves) (lexeme :: lexemes)) :
    leaf.span.start = lexeme.span.start := by
  cases cover <;> rfl

namespace Parser

variable (source : List Char)

section Headers

theorem take_inline (kind : TokenKind) (node : NodeKind) (free : kind ∉ leaflessKinds)
    (plain : node ≠ .body ∧ node ≠ .ifStatement) :
    TakesAt kind (take node) fun tree taken => OneLine source [tree] taken := by
  intro before after tree isKind run
  rw [take_run] at run
  cases run
  have going : kind ≠ .endOfFile := by
    rintro rfl
    exact free (by decide)
  exact ⟨[before.next], takes_next before kind isKind going, .leaf node _ (by rwa [isKind]) plain⟩

theorem expect_inline (kind : TokenKind) (node : NodeKind) (free : kind ∉ leaflessKinds)
    (plain : node ≠ .body ∧ node ≠ .ifStatement) :
    Takes (expect kind node) fun tree taken => OneLine source [tree] taken := by
  intro before after tree run
  obtain ⟨isKind, rfl, rfl⟩ := (expect_succeeds_iff _ _ _ _ _).mp run
  exact take_inline source kind node free plain before _ _ isKind (take_run node before)

theorem expect_name_inline : Takes expectName fun tree taken => OneLine source [tree] taken := by
  intro before after tree run
  obtain ⟨isName, rfl, rfl⟩ := (expect_name_succeeds_iff _ _ _).mp run
  exact take_inline source .name .variableName (by decide) (by decide) before _ _ isName
    (take_run _ before)

theorem expression_inline : Takes expression fun tree taken =>
    OneLine source [tree] taken ∧ tree.kind ≠ .keyword := by
  intro before after tree run
  obtain ⟨taken, split, whole⟩ := expression_takes before after tree run
  exact ⟨taken, split, .of_grammar whole, (Tree.grammar_holds_no_block source whole).2⟩

theorem type_after_inline (mark : TokenKind) (known : mark = .colon ∨ mark = .arrow) :
    Takes (typeAfter mark) fun tree taken => OneLine source [tree] taken := by
  have free : mark ∉ leaflessKinds := by rcases known with rfl | rfl <;> decide
  have plain : (if mark = .arrow then NodeKind.operator else .punctuation) ≠ .body ∧
      (if mark = .arrow then NodeKind.operator else .punctuation) ≠ .ifStatement := by
    split <;> decide
  refine takes_bind _ _ (expect_inline source mark _ free plain) fun sign taken signed => ?_
  refine takes_peek _ fun lexeme => ?_
  have typed : ∀ kind node, kind ∉ leaflessKinds → node ≠ .body ∧ node ≠ .ifStatement →
      TakesAt kind (do return Tree.branch .typeDef [sign, ← take node])
        fun tree more => OneLine source [tree] (taken ++ more) := by
    intro kind node free plain
    refine takes_at_bind _ _ kind (take_inline source kind node free plain) fun name more named => ?_
    exact takes_pure _ (.branch .typeDef (by decide) (by simpa using signed.append named))
  split
  · rename_i isName
    rw [isName]
    exact typed .name .variableName (by decide) (by decide)
  · rename_i isNone
    rw [isNone]
    exact typed .noneWord .noneWord (by decide) (by decide)
  · exact takes_at_of_takes _ _ fun before after result run =>
      absurd run (unexpected_fails _ before after result)

theorem type_if_inline (mark : TokenKind) (known : mark = .colon ∨ mark = .arrow) :
    Takes (typeIf mark) (OneLine source) := by
  refine takes_peek _ fun lexeme => takes_at_of_takes _ _ ?_
  split
  · exact takes_last _ _ (type_after_inline source mark known) fun tree taken inline => inline
  · exact takes_pure _ .nil

/-- Items in parentheses are inline if each item is. -/
theorem listed_inline {entries : List (List Tree × List Lexeme)} {parts : List Tree}
    {inside : List Lexeme} (kind : NodeKind) (plain : kind ≠ .body ∧ kind ≠ .ifStatement)
    (opening closing : Lexeme) (opens : opening.kind = .leftParen)
    (closes : closing.kind = .rightParen) (listed : CommaList entries parts inside)
    (fit : ∀ entry ∈ entries, OneLine source entry.1 entry.2) :
    OneLine source [.branch kind (.leaf .punctuation opening.span :: parts ++
      [.leaf .punctuation closing.span])] (opening :: inside ++ [closing]) := by
  have items : OneLine source parts inside := by
    clear opens closes
    induction listed with
    | none => exact .nil
    | last item lexemes => exact fit (item, lexemes) (by simp)
    | more item lexemes comma items parts others isComma rest induction =>
        have later := induction fun entry there => fit entry (by simp [there])
        have mark : OneLine source [.leaf .punctuation comma.span] [comma] :=
          .leaf .punctuation comma (by rw [isComma]; decide) (by decide)
        exact (fit (item, lexemes) (by simp)).append (mark.append later)
  have first : OneLine source [.leaf .punctuation opening.span] [opening] :=
    .leaf .punctuation opening (by rw [opens]; decide) (by decide)
  have last : OneLine source [.leaf .punctuation closing.span] [closing] :=
    .leaf .punctuation closing (by rw [closes]; decide) (by decide)
  exact .branch kind plain ((first.append items).append last)

theorem parameters_inline : Takes parameters fun tree taken => OneLine source [tree] taken := by
  have item : Takes (do let name ← expectName; return name :: (← typeIf .colon))
      (OneLine source) := by
    refine takes_bind _ _ (expect_name_inline source) fun name taken named => ?_
    exact takes_last _ _ (type_if_inline source .colon (.inl rfl)) fun declared more typed =>
      named.append typed
  intro before after tree run
  obtain ⟨taken, split, opening, parts, inside, closing, entries, rfl, rfl, opens, closes, listed,
    fit⟩ := parenthesized_takes .paramList _ _ item before after tree run
  exact ⟨_, split, listed_inline source .paramList (by decide) opening closing opens closes listed fit⟩

theorem bases_inline (depth : Nat) : Takes (arguments (expressionUpTo depth))
    fun tree taken => OneLine source [tree] taken := by
  intro before after tree run
  obtain ⟨taken, split, opening, parts, inside, closing, items, rfl, rfl, opens, closes, listed,
    whole⟩ := arguments_takes _ (expression_up_to_takes depth) before after tree run
  refine ⟨_, split, listed_inline source .argList (by decide) opening closing opens closes listed ?_⟩
  intro entry member
  obtain ⟨item, there, rfl⟩ := List.mem_map.mp member
  exact .of_grammar (whole item there)

theorem values_inline : Takes (repeated valueStep) (OneLine source) := by
  refine repeated_collects valueStep (OneLine source) .nil (fun first second => first.append second) ?_
  intro before after answer run
  rw [valueStep, StateT.run_bind, take_if_run] at run
  split at run
  · rename_i isSign
    rw [ok_bind] at run
    simp only [run_bind_succeeds_iff, run_pure_succeeds_iff] at run
    obtain ⟨value, _, ranValue, rfl, rfl⟩ := run
    obtain ⟨taken, split, inline, _⟩ := expression_inline source before.past _ value ranValue
    have sign : OneLine source [.leaf .assignOp before.next.span] [before.next] :=
      .leaf .assignOp before.next (by rw [isSign]; decide) (by decide)
    refine ⟨before.next :: taken, ?_, sign.append inline⟩
    rw [takes_next before .assign isSign (by decide), split]
    rfl
  · rw [ok_bind] at run
    cases run
    exact ⟨[], rfl, .nil⟩

end Headers

section Lines

variable {source : List Char} {blocks : List Nat}

theorem columned_past_content (taken rest : List Lexeme)
    (content : ∀ lexeme ∈ taken, lexeme.kind.IsContent)
    (columned : Columned source blocks false (taken ++ rest)) :
    Columned source blocks false rest := by
  induction taken with
  | nil => exact columned
  | cons lexeme others induction =>
      exact induction (fun other member => content other (by simp [member]))
        ((columned_content (content lexeme (by simp))).mp columned).2

/-- At the end of a block the place in its line does not matter. -/
theorem columned_at_close (stream : TokenStream) (fresh : Bool)
    (closes : stream.next.kind = .dedent ∨ stream.next.kind = .endOfFile)
    (columned : Columned source blocks fresh stream.rest) :
    Columned source blocks true stream.rest := by
  rcases stream with ⟨rest, last⟩
  cases rest with
  | nil => trivial
  | cons lexeme rest =>
      rcases closes with isDedent | isEnd
      · exact (columned_dedent isDedent).mpr ((columned_dedent isDedent).mp columned)
      · exact columned_end isEnd

/-- What a parser answers, with the open blocks the same before and after it, where it is inside of a
line or at the start of one. -/
def Goes {Result : Type} (source : List Char) (blocks : List Nat) (fresh ends : Bool)
    (parser : Parser Result) (good : Result → Prop) : Prop :=
  ∀ before after result, parser.run before = .ok (result, after) →
    Columned source blocks fresh before.rest → Columned source blocks ends after.rest ∧ good result

/-- A parser of statements in any block. A statement starts with a token of its line. -/
def GoesByLines (source : List Char) (parser : Parser Tree) : Prop :=
  ∀ blocks before after tree, parser.run before = .ok (tree, after) →
    Columned source blocks false before.rest → Columned source blocks true after.rest ∧
      tree.FollowsLayout source (innermost blocks) ∧ before.next.kind.IsContent ∧
      tree.span.start = before.next.span.start

section Combinators

variable {First Second : Type} {fresh middle ends : Bool}

theorem goes_bind (first : Parser First) (next : First → Parser Second) {fits : First → Prop}
    {good : Second → Prop} (firsts : Goes source blocks fresh middle first fits)
    (nexts : ∀ result, fits result → Goes source blocks middle ends (next result) good) :
    Goes source blocks fresh ends (first >>= next) good := by
  intro before after answer run columned
  obtain ⟨result, between, ran, run⟩ := (run_bind_succeeds_iff _ _ _ _ _).mp run
  obtain ⟨later, fit⟩ := firsts before between result ran columned
  exact nexts result fit between after answer run later

theorem goes_pure (result : Second) {good : Second → Prop} (holds : good result) :
    Goes source blocks fresh fresh (pure result) good := by
  intro before after answer run columned
  cases run
  exact ⟨columned, holds⟩

theorem goes_peek (choice : Lexeme → Parser Second) {good : Second → Prop}
    (choices : ∀ lexeme, Goes source blocks fresh ends (choice lexeme) good) :
    Goes source blocks fresh ends (peek >>= choice) good := by
  intro before after answer run columned
  rw [StateT.run_bind, peek_run, ok_bind] at run
  exact choices _ before after answer run columned

theorem goes_remaining (choice : Nat → Parser Second) {good : Second → Prop}
    (choices : ∀ count, Goes source blocks fresh ends (choice count) good) :
    Goes source blocks fresh ends (remaining >>= choice) good := by
  intro before after answer run columned
  rw [StateT.run_bind, remaining_run, ok_bind] at run
  exact choices _ before after answer run columned

theorem goes_of_takes (parser : Parser First) {fits : First → List Lexeme → Prop}
    {good : First → Prop} (takes : Takes parser fits)
    (content : ∀ result taken, fits result taken → ∀ lexeme ∈ taken, lexeme.kind.IsContent)
    (holds : ∀ result taken, fits result taken → good result) :
    Goes source blocks false false parser good := by
  intro before after result run columned
  obtain ⟨taken, split, fit⟩ := takes before after result run
  rw [split] at columned
  exact ⟨columned_past_content taken _ (content result taken fit) columned, holds result taken fit⟩

theorem goes_of_one_line (parser : Parser Tree)
    (takes : Takes parser fun tree taken => OneLine source [tree] taken) :
    Goes source blocks false false parser (Tree.FollowsLayout source (innermost blocks)) :=
  goes_of_takes parser takes (fun _ _ inline => inline.content)
    fun tree _ inline => inline.flat tree (by simp) _

theorem goes_of_one_line_all (parser : Parser (List Tree)) (takes : Takes parser (OneLine source)) :
    Goes source blocks false false parser
      fun trees => ∀ tree ∈ trees, tree.FollowsLayout source (innermost blocks) :=
  goes_of_takes parser takes (fun _ _ inline => inline.content)
    fun _ _ inline tree member => inline.flat tree member _

theorem goes_repeated (step : Parser (Option (List Tree))) (good : Tree → Prop)
    (steps : Goes source blocks true true step fun answer => ∀ tree ∈ answer.getD [], good tree) :
    Goes source blocks true true (repeated step) fun trees => ∀ tree ∈ trees, good tree := by
  have upTo : ∀ count, Goes source blocks true true (repeatUpTo step count)
      fun trees => ∀ tree ∈ trees, good tree := by
    intro count
    induction count with
    | zero => exact goes_pure _ nofun
    | succ count induction =>
        refine goes_bind _ _ steps fun answer first => ?_
        cases answer with
        | none => exact goes_pure _ nofun
        | some items =>
            refine goes_bind _ _ induction fun later others => goes_pure _ fun tree member => ?_
            exact (List.mem_append.mp member).elim (first tree) (others tree)
  exact goes_remaining _ fun count => upTo (count + 1)

end Combinators

theorem end_of_statement_goes :
    Goes source blocks false true endOfStatement fun _ => True := by
  intro before after answer run columned
  rw [endOfStatement, StateT.run_bind, peek_run, ok_bind] at run
  refine ⟨?_, trivial⟩
  split at run
  · rename_i isNewline
    rw [advance_run] at run
    cases run
    rw [takes_next before .newline isNewline (by decide)] at columned
    exact (columned_newline isNewline).mp columned
  · rename_i isDedent
    cases run
    exact columned_at_close before false (.inl isDedent) columned
  · rename_i isEnd
    cases run
    exact columned_at_close before false (.inr isEnd) columned
  · exact absurd run (unexpected_fails _ _ _ _)

theorem columned_past_newlines (lexemes : List Lexeme)
    (columned : Columned source blocks true lexemes) :
    Columned source blocks true (lexemes.dropWhile (·.kind = .newline)) := by
  induction lexemes with
  | nil => trivial
  | cons lexeme rest induction =>
      by_cases isNewline : lexeme.kind = .newline
      · rw [List.dropWhile_cons_of_pos (by simpa using isNewline)]
        exact induction ((columned_newline isNewline).mp columned)
      · rwa [List.dropWhile_cons_of_neg (by simpa using isNewline)]

theorem skip_newlines_goes : Goes source blocks true true skipNewlines fun _ => True := by
  intro before after answer run columned
  obtain ⟨last, skipped⟩ := skip_newlines_rest before
  rw [skipped] at run
  cases run
  exact ⟨columned_past_newlines before.rest columned, trivial⟩

theorem columned_past (stream : TokenStream) (fresh : Bool) (content : stream.next.kind.IsContent)
    (columned : Columned source blocks fresh stream.rest) :
    Columned source blocks false stream.past.rest := by
  rw [stream.rest_of_next content.notEnd] at columned
  exact ((columned_content content).mp columned).2

theorem begins_on_next (stream : TokenStream) (content : stream.next.kind.IsContent)
    (columned : Columned source blocks true stream.rest) :
    BeginsLine source (innermost blocks) stream.next.span.start := by
  rw [stream.rest_of_next content.notEnd] at columned
  exact ((columned_content content).mp columned).1 rfl

theorem arm_word_begins (kind : TokenKind) (free : kind ∉ leaflessKinds) (stream : TokenStream)
    (isKind : stream.next.kind = kind) (columned : Columned source blocks true stream.rest) :
    BeginsLine source (innermost blocks) stream.next.span.start ∧
      Columned source blocks false stream.past.rest := by
  have content := is_content_of_leaf kind free
  rw [← isKind] at content
  exact ⟨begins_on_next stream content columned, columned_past stream true content columned⟩

theorem goes_after_keyword (next : Tree → Parser Tree) (before after : TokenStream) (tree : Tree)
    (isKeyword : before.next.kind ∉ leaflessKinds)
    (nexts : ∀ span, Goes source blocks false true (next (.leaf .keyword span)) fun tree =>
      tree.span.start = span.start ∧ tree.FollowsLayout source (innermost blocks))
    (run : (take .keyword >>= next).run before = .ok (tree, after))
    (columned : Columned source blocks false before.rest) :
    Columned source blocks true after.rest ∧ tree.FollowsLayout source (innermost blocks) ∧
      before.next.kind.IsContent ∧ tree.span.start = before.next.span.start := by
  have content := is_content_of_leaf _ isKeyword
  rw [StateT.run_bind, take_run, ok_bind] at run
  obtain ⟨left, start, follows⟩ :=
    nexts before.next.span before.past after tree run (columned_past before false content columned)
  exact ⟨left, follows, content, start⟩

theorem expression_starts (before after : TokenStream) (tree : Tree)
    (run : expression.run before = .ok (tree, after)) :
    before.next.kind.IsContent ∧ tree.span.start = before.next.span.start := by
  obtain ⟨taken, split, whole⟩ := expression_takes before after tree run
  obtain ⟨first, more, rfl, _⟩ := grammar_starts _ _ _ _ whole
  have next : before.next = first := by
    rw [TokenStream.next, split]
    rfl
  have written := grammar_written whole
  rw [next]
  refine ⟨is_content_of_leaf _ (written.covered.kinds first (by simp)), ?_⟩
  obtain ⟨head, last, isHead, _, reach⟩ := (written.branched tree (by simp)).reaches
  obtain ⟨others, leaves⟩ := List.head?_eq_some_iff.mp isHead
  have covered := written.covered
  rw [Tree.leaves_of_more, leaves, List.cons_append] at covered
  rw [reach]
  exact covered.starts_first

end Lines

section Statements

variable {source : List Char} {blocks : List Nat} (parse : Parser Tree)
variable (goes : GoesByLines source parse)

include goes

/-- The members of a block begin their lines, but the first one only where a line is due. -/
theorem members_go (ends : List TokenKind) (count : Nat) (fresh : Bool)
    (before after : TokenStream) (trees : List Tree)
    (run : (repeatUpTo (memberStep parse ends) count).run before = .ok (trees, after))
    (columned : Columned source blocks fresh before.rest) :
    Columned source blocks fresh after.rest ∧
      (∀ tree ∈ trees, tree.FollowsLayout source (innermost blocks)) ∧
      (∀ tree ∈ trees.tail, BeginsLine source (innermost blocks) tree.span.start) ∧
      ∀ tree ∈ trees.head?, before.next.kind.IsContent ∧
        tree.span.start = before.next.span.start := by
  -- Behind each member the newlines are skipped, so only the first one may stand in a place that is
  -- not fresh.
  induction count generalizing before trees fresh with
  | zero =>
      cases run
      exact ⟨columned, nofun, nofun, nofun⟩
  | succ count induction =>
      rw [repeatUpTo, run_bind_succeeds_iff] at run
      obtain ⟨answer, middle, ranStep, run⟩ := run
      rw [memberStep, StateT.run_bind, peek_run, ok_bind] at ranStep
      split at ranStep
      · cases ranStep
        cases run
        exact ⟨columned, nofun, nofun, nofun⟩
      · simp only [run_bind_succeeds_iff, run_pure_succeeds_iff] at ranStep
        obtain ⟨statement, line, ranParse, _, _, skipped, rfl, rfl⟩ := ranStep
        simp only [run_bind_succeeds_iff, run_pure_succeeds_iff] at run
        obtain ⟨later, _, ranLater, rfl, rfl⟩ := run
        have inside : Columned source blocks false before.rest := by
          cases fresh with
          | true => exact columned.weaken
          | false => exact columned
        obtain ⟨ended, follows, start⟩ := goes blocks before line statement ranParse inside
        obtain ⟨next, _⟩ := skip_newlines_goes line _ _ skipped ended
        obtain ⟨left, others, aligned, first⟩ := induction true _ later ranLater next
        refine ⟨left.weaken, ?_, ?_, ?_⟩
        · intro tree member
          rcases List.mem_cons.mp member with rfl | member
          · exact follows
          · exact others tree member
        · intro tree member
          change tree ∈ later at member
          cases later with
          | nil => cases member
          | cons second more =>
              rcases List.mem_cons.mp member with rfl | member
              · obtain ⟨content, same⟩ := first tree rfl
                rw [same]
                exact begins_on_next _ content next
              · exact aligned tree member
        · rintro tree ⟨⟩
          exact start

/-- The statements of a block all begin their lines, since a block begins one. -/
theorem statements_until_go (ends : List TokenKind) :
    Goes source blocks true true (statementsUntil parse ends) fun trees =>
      ∀ tree ∈ trees, BeginsLine source (innermost blocks) tree.span.start ∧
        tree.FollowsLayout source (innermost blocks) := by
  rw [statements_until_eq]
  refine goes_bind _ _ skip_newlines_goes fun _ _ => ?_
  intro before after trees run columned
  rw [repeated, StateT.run_bind, remaining_run, ok_bind] at run
  obtain ⟨left, follows, aligned, first⟩ := members_go parse goes ends _ true before after trees
    run columned
  refine ⟨left, fun tree member => ⟨?_, follows tree member⟩⟩
  cases trees with
  | nil => cases member
  | cons head others =>
      rcases List.mem_cons.mp member with rfl | later
      · obtain ⟨content, same⟩ := first tree rfl
        rw [same]
        exact begins_on_next before content columned
      · exact aligned tree later

variable (parses : Takes parse fun tree taken => LaidOut [tree] taken)

include parses

theorem block_goes : Goes source blocks false true (block parse) fun tree =>
    tree.kind = .body ∧ tree.FollowsLayout source (innermost blocks) := by
  refine goes_bind _ _ (goes_of_one_line _ (expect_inline source .colon .punctuation (by decide)
    (by decide))) fun colon _ => ?_
  intro before after tree run columned
  rw [StateT.run_bind, peek_run, ok_bind] at run
  split at run
  · obtain ⟨_, _, ran, _⟩ := (run_bind_succeeds_iff _ _ _ _ _).mp run
    exact absurd ran (unexpected_fails _ _ _ _)
  rename_i isNewline
  rw [StateT.run_bind, advance_run, ok_bind, StateT.run_bind, peek_run, ok_bind] at run
  rw [takes_next before .newline (not_not.mp isNewline) (by decide)] at columned
  have line := (columned_newline (not_not.mp isNewline)).mp columned
  split at run
  · rw [StateT.run_bind, peek_run, ok_bind] at run
    cases run
  rename_i isIndent
  rw [StateT.run_bind, advance_run, ok_bind, run_bind_succeeds_iff] at run
  rw [takes_next before.past .indent (not_not.mp isIndent) (by decide)] at line
  -- The indent opens a block whose column is further to the right.
  obtain ⟨inner, deeper, inside⟩ := (columned_indent (not_not.mp isIndent)).mp line
  obtain ⟨statements, middle, ran, run⟩ := run
  obtain ⟨left, members⟩ := statements_until_go parse goes _ _ middle statements ran inside
  have body : (Tree.branch .body (colon :: statements)).FollowsLayout source (innermost blocks) :=
    .body _ inner _ colon statements deeper (fun statement member => (members statement member).1)
      fun statement member => (members statement member).2
  rw [StateT.run_bind, peek_run, ok_bind] at run
  split at run
  · rename_i isDedent
    rw [StateT.run_bind, advance_run, ok_bind] at run
    cases run
    rw [takes_next middle .dedent isDedent (by decide)] at left
    obtain ⟨_, _, same, back⟩ := (columned_dedent isDedent).mp left
    cases same
    exact ⟨back, rfl, body⟩
  -- A block without a dedent ends at the end of the file, where no column is asked for.
  · rename_i noDedent
    cases run
    have stopped := statements_until_stop parse parses _ _ middle statements ran
    simp only [List.mem_cons, List.not_mem_nil, or_false] at stopped
    have isEnd := stopped.resolve_left noDedent
    refine ⟨?_, rfl, body⟩
    rcases middle with ⟨rest, last⟩
    cases rest with
    | nil => trivial
    | cons lexeme rest => exact columned_end isEnd

theorem guarded_goes : Goes source blocks false true (guarded parse) fun parts =>
    ∀ part ∈ parts, part.kind ≠ .keyword ∧ part.FollowsLayout source (innermost blocks) := by
  have test : Goes source blocks false false expression fun tree =>
      tree.kind ≠ .keyword ∧ tree.FollowsLayout source (innermost blocks) :=
    goes_of_takes expression (expression_inline source) (fun _ _ inline => inline.1.content)
      fun tree _ inline => ⟨inline.2, inline.1.flat tree (by simp) _⟩
  refine goes_bind _ _ test fun tree known => ?_
  refine goes_bind _ _ (block_goes parse goes parses) fun body follows => goes_pure _ ?_
  intro part member
  simp only [List.mem_cons, List.not_mem_nil, or_false] at member
  rcases member with rfl | rfl
  · exact known
  · exact ⟨by rw [follows.1]; decide, follows.2⟩

theorem branch_step_goes : Goes source blocks true true (branchStep parse) fun answer =>
    ∀ part ∈ answer.getD [],
      (part.kind = .keyword → BeginsLine source (innermost blocks) part.span.start) ∧
        part.FollowsLayout source (innermost blocks) := by
  intro before after answer run columned
  rw [branchStep, StateT.run_bind, take_if_run] at run
  split at run
  · rename_i isElif
    obtain ⟨aligned, inside⟩ := arm_word_begins .elifWord (by decide) before isElif columned
    rw [ok_bind] at run
    simp only [run_bind_succeeds_iff, run_pure_succeeds_iff] at run
    obtain ⟨parts, _, ranParts, rfl, rfl⟩ := run
    obtain ⟨left, follows⟩ := guarded_goes parse goes parses _ _ parts ranParts inside
    refine ⟨left, fun part member => ?_⟩
    rcases List.mem_cons.mp member with rfl | member
    · exact ⟨fun _ => aligned, Tree.leaf_holds_no_block source .keyword _ (by decide) _⟩
    · exact ⟨fun isKeyword => absurd isKeyword (follows part member).1, (follows part member).2⟩
  · rw [ok_bind] at run
    cases run
    exact ⟨columned, List.forall_mem_nil _⟩

theorem if_statement_goes (span : Span) : Goes source blocks false true (do
    let first ← guarded parse
    let others ← repeated (branchStep parse)
    let last ← match ← takeIf .elseWord .keyword with
      | none => pure []
      | some otherwise => do pure [otherwise, ← block parse]
    return Tree.branch .ifStatement (.leaf .keyword span :: first ++ others ++ last)) fun tree =>
      tree.span.start = span.start ∧ tree.FollowsLayout source (innermost blocks) := by
  refine goes_bind _ _ (guarded_goes parse goes parses) fun first guards => ?_
  refine goes_bind _ _ (goes_repeated _ _ (branch_step_goes parse goes parses))
    fun others arms => ?_
  -- The words of further arms begin their lines at the column of the block, wherever the condition
  -- ends.
  have whole : ∀ last : List Tree, (∀ part ∈ last,
      (part.kind = .keyword → BeginsLine source (innermost blocks) part.span.start) ∧
        part.FollowsLayout source (innermost blocks)) →
      (Tree.branch .ifStatement (.leaf .keyword span :: first ++ others ++ last)).FollowsLayout source
        (innermost blocks) := by
    intro last known
    have parts : ∀ part ∈ first ++ others ++ last,
        (part.kind = .keyword → BeginsLine source (innermost blocks) part.span.start) ∧
          part.FollowsLayout source (innermost blocks) := by
      intro part member
      simp only [List.mem_append] at member
      rcases member with (inFirst | inOthers) | inLast
      · exact ⟨fun isKeyword => absurd isKeyword (guards part inFirst).1, (guards part inFirst).2⟩
      · exact arms part inOthers
      · exact known part inLast
    refine .cond _ _ _ _ (fun part member => (parts part member).1) fun part member => ?_
    rcases List.mem_cons.mp member with rfl | member
    · exact Tree.leaf_holds_no_block source .keyword _ (by decide) _
    · exact (parts part member).2
  intro before after tree run columned
  rw [StateT.run_bind, take_if_run] at run
  split at run
  · rename_i isElse
    obtain ⟨aligned, inside⟩ := arm_word_begins .elseWord (by decide) before isElse columned
    rw [ok_bind] at run
    obtain ⟨body, _, ranBody, same⟩ := (run_bind_succeeds_iff _ _ _ _ _).mp run
    cases same
    obtain ⟨left, isBody, follows⟩ := block_goes parse goes parses _ _ body ranBody inside
    refine ⟨left, rfl, whole _ fun part member => ?_⟩
    simp only [List.mem_cons, List.not_mem_nil, or_false] at member
    rcases member with rfl | rfl
    · exact ⟨fun _ => aligned, Tree.leaf_holds_no_block source .keyword _ (by decide) _⟩
    · exact ⟨fun isKeyword => absurd (isBody.symm.trans isKeyword) (by decide), follows⟩
  · rw [ok_bind] at run
    cases run
    exact ⟨columned, rfl, whole [] (List.forall_mem_nil _)⟩

theorem while_statement_goes (span : Span) : Goes source blocks false true
    (do return Tree.branch .whileStatement (.leaf .keyword span :: (← guarded parse))) fun tree =>
      tree.span.start = span.start ∧ tree.FollowsLayout source (innermost blocks) := by
  refine goes_bind _ _ (guarded_goes parse goes parses) fun parts follows => goes_pure _ ?_
  refine ⟨rfl, Tree.branch_follows source _ .whileStatement _ (by decide) fun part member => ?_⟩
  rcases List.mem_cons.mp member with rfl | member
  · exact Tree.leaf_holds_no_block source .keyword _ (by decide) _
  · exact (follows part member).2

theorem function_definition_goes (span : Span) : Goes source blocks false true (do
    let name ← expectName
    let params ← parameters
    let result ← typeIf .arrow
    let body ← block parse
    return Tree.branch .functionDefinition
      (.leaf .keyword span :: name :: params :: result ++ [body])) fun tree =>
      tree.span.start = span.start ∧ tree.FollowsLayout source (innermost blocks) := by
  refine goes_bind _ _ (goes_of_one_line _ (expect_name_inline source)) fun name named => ?_
  refine goes_bind _ _ (goes_of_one_line _ (parameters_inline source)) fun params listed => ?_
  refine goes_bind _ _ (goes_of_one_line_all _ (type_if_inline source .arrow (.inr rfl)))
    fun result typed => ?_
  refine goes_bind _ _ (block_goes parse goes parses) fun body follows => goes_pure _ ?_
  refine ⟨rfl, Tree.branch_follows source _ .functionDefinition _ (by decide) fun part member => ?_⟩
  simp only [List.cons_append, List.mem_cons, List.mem_append, List.not_mem_nil, or_false] at member
  rcases member with rfl | rfl | rfl | inResult | rfl
  · exact Tree.leaf_holds_no_block source .keyword _ (by decide) _
  · exact named
  · exact listed
  · exact typed part inResult
  · exact follows.2

theorem class_definition_goes (span : Span) : Goes source blocks false true (do
    let name ← expectName
    let bases ← do
      if (← peek).kind = .leftParen then
        let depth ← remaining
        pure [← arguments (expressionUpTo depth)]
      else pure []
    let body ← block parse
    return Tree.branch .classDefinition (.leaf .keyword span :: name :: bases ++ [body])) fun tree =>
      tree.span.start = span.start ∧ tree.FollowsLayout source (innermost blocks) := by
  refine goes_bind _ _ (goes_of_one_line _ (expect_name_inline source)) fun name named => ?_
  have ends : ∀ bases : List Tree, (∀ tree ∈ bases, tree.FollowsLayout source (innermost blocks)) →
      Goes source blocks false true (do
        return Tree.branch .classDefinition
          (.leaf .keyword span :: name :: bases ++ [← block parse])) fun tree =>
        tree.span.start = span.start ∧ tree.FollowsLayout source (innermost blocks) := by
    intro bases listed
    refine goes_bind _ _ (block_goes parse goes parses) fun body follows => goes_pure _ ?_
    refine ⟨rfl, Tree.branch_follows source _ .classDefinition _ (by decide) fun part member => ?_⟩
    simp only [List.cons_append, List.mem_cons, List.mem_append, List.not_mem_nil, or_false] at member
    rcases member with rfl | rfl | inBases | rfl
    · exact Tree.leaf_holds_no_block source .keyword _ (by decide) _
    · exact named
    · exact listed part inBases
    · exact follows.2
  refine goes_peek _ fun lexeme => ?_
  split
  · refine goes_remaining _ fun depth => ?_
    refine goes_bind _ _ (goes_of_one_line _ (bases_inline source depth)) fun list listed => ?_
    exact ends [list] fun tree member => by rwa [List.mem_singleton.mp member]
  · exact ends [] (List.forall_mem_nil _)

omit goes parses in
theorem keyword_statement_goes (kind : NodeKind) (plain : kind ≠ .body ∧ kind ≠ .ifStatement)
    (span : Span) : Goes source blocks false true
      (do endOfStatement; return Tree.branch kind [.leaf .keyword span]) fun tree =>
      tree.span.start = span.start ∧ tree.FollowsLayout source (innermost blocks) := by
  refine goes_bind _ _ end_of_statement_goes fun _ _ => goes_pure _ ⟨rfl, ?_⟩
  refine Tree.branch_follows source _ kind _ plain fun part member => ?_
  rw [List.mem_singleton.mp member]
  exact Tree.leaf_holds_no_block source .keyword _ (by decide) _

omit goes parses in
theorem return_statement_goes (span : Span) : Goes source blocks false true (do
    let value ← match (← peek).kind with
      | .newline => pure []
      | .dedent => pure []
      | .endOfFile => pure []
      | _ => do pure [← expression]
    endOfStatement
    return Tree.branch .returnStatement (.leaf .keyword span :: value)) fun tree =>
      tree.span.start = span.start ∧ tree.FollowsLayout source (innermost blocks) := by
  have ends : ∀ value : List Tree, (∀ tree ∈ value, tree.FollowsLayout source (innermost blocks)) →
      Goes source blocks false true (do
        endOfStatement
        return Tree.branch .returnStatement (.leaf .keyword span :: value)) fun tree =>
        tree.span.start = span.start ∧ tree.FollowsLayout source (innermost blocks) := by
    intro value known
    refine goes_bind _ _ end_of_statement_goes fun _ _ => goes_pure _ ⟨rfl, ?_⟩
    refine Tree.branch_follows source _ .returnStatement _ (by decide) fun part member => ?_
    rcases List.mem_cons.mp member with rfl | inValue
    · exact Tree.leaf_holds_no_block source .keyword _ (by decide) _
    · exact known part inValue
  refine goes_peek _ fun lexeme => ?_
  split
  · exact ends [] (List.forall_mem_nil _)
  · exact ends [] (List.forall_mem_nil _)
  · exact ends [] (List.forall_mem_nil _)
  · refine goes_bind _ _ (goes_of_one_line expression fun before after tree run => ?_)
      fun value follows => ends [value] fun tree member => by rwa [List.mem_singleton.mp member]
    obtain ⟨taken, split, inline, _⟩ := expression_inline source before after tree run
    exact ⟨taken, split, inline⟩

omit goes parses in
theorem expression_or_assignment_goes : GoesByLines source expressionOrAssignment := by
  intro blocks before after tree run columned
  rw [expression_or_assignment_eq] at run
  obtain ⟨target, middle, ranTarget, run⟩ := (run_bind_succeeds_iff _ _ _ _ _).mp run
  obtain ⟨content, start⟩ := expression_starts before middle target ranTarget
  obtain ⟨taken, split, inline, _⟩ := expression_inline source before middle target ranTarget
  rw [split] at columned
  have line := columned_past_content taken _ inline.content columned
  have rest : Goes source blocks false true (do
      let declared ← typeIf .colon
      let values ← repeated valueStep
      endOfStatement
      let parts := target :: declared ++ values
      return Tree.branch
        (if parts.length = 1 then .expressionStatement else .assignStatement) parts) fun tree =>
      tree.span.start = target.span.start ∧ tree.FollowsLayout source (innermost blocks) := by
    refine goes_bind _ _ (goes_of_one_line_all _ (type_if_inline source .colon (.inl rfl)))
      fun declared typed => ?_
    refine goes_bind _ _ (goes_of_one_line_all _ (values_inline source)) fun values valued => ?_
    refine goes_bind _ _ end_of_statement_goes fun _ _ => goes_pure _ ⟨rfl, ?_⟩
    refine Tree.branch_follows source _ _ _ (by split <;> decide) fun part member => ?_
    rcases List.mem_append.mp member with inFront | inValues
    · rcases List.mem_cons.mp inFront with rfl | inDeclared
      · exact inline.flat part (by simp) _
      · exact typed part inDeclared
    · exact valued part inValues
  obtain ⟨left, same, follows⟩ := rest middle after tree run line
  exact ⟨left, follows, content, same.trans start⟩

theorem statement_of_goes : GoesByLines source (statementOf parse) := by
  intro blocks before after tree run columned
  rw [statementOf, StateT.run_bind, peek_run, ok_bind] at run
  split at run <;> rename_i isKind
  · exact goes_after_keyword _ before after tree (by rw [isKind]; decide)
      (function_definition_goes parse goes parses) run columned
  · exact goes_after_keyword _ before after tree (by rw [isKind]; decide)
      (class_definition_goes parse goes parses) run columned
  · rw [if_statement_eq] at run
    exact goes_after_keyword _ before after tree (by rw [isKind]; decide)
      (if_statement_goes parse goes parses) run columned
  · exact goes_after_keyword _ before after tree (by rw [isKind]; decide)
      (while_statement_goes parse goes parses) run columned
  · exact goes_after_keyword _ before after tree (by rw [isKind]; decide)
      return_statement_goes run columned
  · exact goes_after_keyword _ before after tree (by rw [isKind]; decide)
      (keyword_statement_goes .passStatement (by decide)) run columned
  · exact goes_after_keyword _ before after tree (by rw [isKind]; decide)
      (keyword_statement_goes .breakStatement (by decide)) run columned
  · exact goes_after_keyword _ before after tree (by rw [isKind]; decide)
      (keyword_statement_goes .continueStatement (by decide)) run columned
  · exact expression_or_assignment_goes blocks before after tree run columned

end Statements

theorem statement_goes {source : List Char} : GoesByLines source statement := by
  have upTo : ∀ depth, GoesByLines source (statementUpTo depth) := by
    intro depth
    induction depth with
    | zero =>
        exact fun _ before after tree run => absurd run (unexpected_fails _ before after tree)
    | succ depth induction => exact statement_of_goes _ induction (statement_up_to_takes depth)
  intro blocks before after tree run
  rw [statement, StateT.run_bind, remaining_run, ok_bind] at run
  exact upTo _ blocks before after tree run

end Parser

/-- In the tree of a source, the statements of a block begin their lines at one column, further to
the right than the block around it, and the further arms of a condition are back at its column. The
statements of the script begin their lines as well, at column zero once a line has ended. -/
theorem blocks_follow_the_layout (source : List Char) (tree : Tree)
    (parsed : Tree.ofSource source = .ok tree) :
    ∀ statement ∈ tree.children,
      statement.FollowsLayout source 0 ∧ LeadsLine source statement.span.start ∧
        ((∃ token ∈ layoutTokens source, token.kind = .newline ∧
          token.span.stop ≤ statement.span.start) →
            Layout.columnOf source statement.span.start = 0) := by
  obtain ⟨sound, _⟩ := script_covers source tree parsed
  have columned := source_columned source fun token member => sound token (.inr member)
  obtain ⟨members, after, run, rfl⟩ := tree_of_source_run source tree parsed
  -- If the source starts with a newline, the first statement begins a line like all others. If not,
  -- its column is not measured, and only blanks stand before it.
  by_cases fresh : ∃ first rest, layoutTokens source = first :: rest ∧ first.kind = .newline
  · obtain ⟨first, rest, layout, newline⟩ := fresh
    have line : Columned source [] true ((layoutTokens source).map (·.lexeme source)) := by
      rw [layout] at columned ⊢
      have isNewline : (first.lexeme source).kind = .newline := newline
      exact (columned_newline isNewline).mpr ((columned_newline isNewline).mp columned)
    obtain ⟨_, aligned⟩ := Parser.statements_until_go _ Parser.statement_goes _ _ _ members run line
    intro statement member
    obtain ⟨begins, follows⟩ := aligned statement member
    exact ⟨follows, begins.leads, fun _ => begins.column⟩
  · rw [Parser.statements_until_eq, run_bind_succeeds_iff] at run
    obtain ⟨_, middle, skipped, run⟩ := run
    have same : ((layoutTokens source).map (·.lexeme source)).dropWhile (·.kind = .newline) =
        (layoutTokens source).map (·.lexeme source) := by
      cases layout : layoutTokens source with
      | nil => rfl
      | cons first rest =>
          refine List.dropWhile_cons_of_neg fun newline => ?_
          exact fresh ⟨first, rest, layout, of_decide_eq_true newline⟩
    obtain ⟨last, skips⟩ := Parser.skip_newlines_rest
      ⟨(layoutTokens source).map (·.lexeme source), ⟨0, 0⟩⟩
    rw [skips, same] at skipped
    cases skipped
    rw [Parser.repeated, StateT.run_bind, Parser.remaining_run, ok_bind] at run
    obtain ⟨_, follows, aligned, first⟩ :=
      Parser.members_go _ Parser.statement_goes _ _ false _ after members run columned
    intro statement member
    refine ⟨follows statement member, ?_⟩
    cases members with
    | nil => cases member
    | cons head others =>
        rcases List.mem_cons.mp member with rfl | later
        · obtain ⟨content, start⟩ := first statement rfl
          rw [start]
          cases layout : layoutTokens source with
          | nil =>
              rw [layout] at content
              exact absurd rfl content.notEnd
          | cons token rest =>
              rw [layout] at content
              obtain ⟨leads, before⟩ := first_token_leads source token rest layout content
              refine ⟨leads, ?_⟩
              rintro ⟨other, there, newline, ends⟩
              have := before other (by rwa [layout]) newline
              exact absurd ends (Nat.not_le.mpr this)
        · have begins := aligned statement later
          exact ⟨begins.leads, fun _ => begins.column⟩

/-- A source with a tab, two blocks that end at once, an arm after a remark, a line that goes on in
parentheses, and a first line that is not at the margin. -/
def tabbedSource : List Char :=
  "  while x:\n\tif y:\n\t  f(1,\n2)\n # no\n\telse:\n\t if z:\n\t\t  pass\nf(3)".toList

theorem tabbed_source_follows : ∃ tree, Tree.ofSource tabbedSource = .ok tree ∧
    tree.children.length = 2 ∧ ∀ statement ∈ tree.children,
      statement.FollowsLayout tabbedSource 0 ∧ LeadsLine tabbedSource statement.span.start ∧
        ((∃ token ∈ layoutTokens tabbedSource, token.kind = .newline ∧
          token.span.stop ≤ statement.span.start) →
            Layout.columnOf tabbedSource statement.span.start = 0) := by
  obtain ⟨tree, parsed⟩ := (is_ok_iff (Tree.ofSource tabbedSource)).mp (by decide +kernel)
  have two : ((Tree.ofSource tabbedSource).toOption.any fun tree =>
      tree.children.length = 2) = true := by
    decide +kernel
  rw [parsed] at two
  exact ⟨tree, parsed, of_decide_eq_true two, blocks_follow_the_layout tabbedSource tree parsed⟩

end ScriptWasm
