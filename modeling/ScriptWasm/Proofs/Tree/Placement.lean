import Mathlib.Data.List.Chain
import ScriptWasm.Proofs.Tree.Lossless
import ScriptWasm.Proofs.Tree.Nesting

/-!
Where statements stand in trees. Statements and definitions are the members of blocks and of the
script, blocks are parts of conditions, loops and definitions, and all other parts of a node are
bare of both.
-/

namespace ScriptWasm

set_option autoImplicit false

namespace NodeKind

def simple : List NodeKind :=
  [.assignStatement, .returnStatement, .passStatement, .breakStatement, .continueStatement,
   .expressionStatement]

def compound : List NodeKind :=
  [.functionDefinition, .classDefinition, .ifStatement, .whileStatement]

def members : List NodeKind :=
  simple ++ compound

end NodeKind

namespace Tree

/-- There is no statement, no definition and no block in a tree. -/
def Bare (tree : Tree) : Prop :=
  ∀ node ∈ tree.nodes, node.kind ∉ NodeKind.members ∧ node.kind ≠ .body

/-- A block in place, or a statement or definition whose blocks are in place. No block stands at the
front of a node or behind another block. -/
inductive Placed : Tree → Prop where
  | simple (kind : NodeKind) (span : Span) (parts : List Tree) (isSimple : kind ∈ NodeKind.simple)
      (bare : ∀ part ∈ parts, part.Bare) : Placed (.node kind span parts)
  | compound (kind : NodeKind) (span : Span) (parts : List Tree)
      (isCompound : kind ∈ NodeKind.compound) (front : ∀ part ∈ parts.head?, part.Bare)
      (bare : ∀ part ∈ parts, part.kind ≠ .body → part.Bare)
      (apart : parts.IsChain fun part next => part.kind = .body → next.Bare)
      (blocks : ∀ part ∈ parts, part.kind = .body → Placed part) : Placed (.node kind span parts)
  | body (span : Span) (colon : Tree) (members : List Tree) (mark : colon.Bare)
      (known : ∀ member ∈ members, member.kind ∈ NodeKind.members)
      (below : ∀ member ∈ members, Placed member) : Placed (.node .body span (colon :: members))

theorem bare_branch (kind : NodeKind) (known : kind ∉ NodeKind.members ∧ kind ≠ .body)
    (parts : List Tree) (below : ∀ part ∈ parts, part.Bare) : (branch kind parts).Bare := by
  intro node member
  rcases (mem_nodes_iff kind _ parts node).mp member with rfl | ⟨part, there, inside⟩
  · exact known
  · exact below part there node inside

theorem bare_leaf (kind : NodeKind) (known : kind ∉ NodeKind.members ∧ kind ≠ .body)
    (span : Span) : (leaf kind span).Bare := by
  intro node member
  rcases (mem_nodes_iff kind span [] node).mp member with rfl | ⟨_, impossible, _⟩
  · exact known
  · cases impossible

theorem Bare.not_body {tree : Tree} (bare : tree.Bare) : tree.kind ≠ .body :=
  (bare tree tree.mem_nodes_self).2

theorem bare_of_grammar {names : Lexeme → Prop} {layer : Layer} {tree : Tree}
    {lexemes : List Lexeme} (whole : Grammar names layer tree lexemes) : tree.Bare :=
  grammar_holds Bare (fun kind known => bare_leaf kind (by revert kind; decide))
    (fun kind known => bare_branch kind (by revert kind; decide)) whole

structure Arranged (parts : List Tree) : Prop where
  bare : ∀ part ∈ parts, part.kind ≠ .body → part.Bare
  apart : parts.IsChain fun part next => part.kind = .body → next.Bare
  blocks : ∀ part ∈ parts, part.kind = .body → part.Placed

namespace Arranged

theorem nil : Arranged [] :=
  ⟨List.forall_mem_nil _, .nil, List.forall_mem_nil _⟩

theorem cons {part : Tree} {rest : List Tree} (bare : part.Bare) (later : Arranged rest) :
    Arranged (part :: rest) where
  bare := List.forall_mem_cons.mpr ⟨fun _ => bare, later.bare⟩
  apart := List.isChain_cons.mpr ⟨fun _ _ isBody => absurd isBody bare.not_body, later.apart⟩
  blocks := List.forall_mem_cons.mpr ⟨fun isBody => absurd isBody bare.not_body, later.blocks⟩

/-- What stands behind a block starts with a bare part. -/
theorem block {part : Tree} {rest : List Tree} (isBody : part.kind = .body) (placed : part.Placed)
    (later : Arranged rest) (front : ∀ next ∈ rest.head?, next.Bare) : Arranged (part :: rest) where
  bare := List.forall_mem_cons.mpr ⟨fun notBody => absurd isBody notBody, later.bare⟩
  apart := List.isChain_cons.mpr ⟨fun next isNext _ => front next isNext, later.apart⟩
  blocks := List.forall_mem_cons.mpr ⟨fun _ => placed, later.blocks⟩

theorem all {parts rest : List Tree} (bare : ∀ part ∈ parts, part.Bare) (later : Arranged rest) :
    Arranged (parts ++ rest) := by
  induction parts with
  | nil => exact later
  | cons first others induction =>
      exact cons (bare first (by simp)) (induction fun part member => bare part (by simp [member]))

theorem append {parts rest : List Tree} (first : Arranged parts) (later : Arranged rest)
    (front : ∀ next ∈ rest.head?, next.Bare) : Arranged (parts ++ rest) where
  bare part member := (List.mem_append.mp member).elim (first.bare part) (later.bare part)
  apart := List.isChain_append.mpr
    ⟨first.apart, later.apart, fun _ _ next isNext _ => front next isNext⟩
  blocks part member := (List.mem_append.mp member).elim (first.blocks part) (later.blocks part)

end Arranged

theorem placed_compound (kind : NodeKind) (isCompound : kind ∈ NodeKind.compound)
    (keyword : Tree) (parts : List Tree) (word : keyword.Bare) (arranged : Arranged parts) :
    (branch kind (keyword :: parts)).kind ∈ NodeKind.members ∧
      (branch kind (keyword :: parts)).Placed := by
  have whole := Arranged.cons word arranged
  refine ⟨List.mem_append_right _ isCompound, ?_⟩
  exact .compound kind _ _ isCompound (fun part front => by cases front; exact word) whole.bare
    whole.apart whole.blocks

end Tree
namespace Parser

open ScriptWasm.Tree

def Answers {Result : Type} (parser : Parser Result) (good : Result → Prop) : Prop :=
  ∀ before after result, parser.run before = .ok (result, after) → good result

section Combinators

variable {First Second : Type}

theorem answers_any (parser : Parser First) : Answers parser fun _ => True :=
  fun _ _ _ _ => trivial

theorem answers_pure (result : Second) {good : Second → Prop} (holds : good result) :
    Answers (pure result) good := by
  intro before after answer run
  cases run
  exact holds

theorem answers_bind (first : Parser First) (next : First → Parser Second) {fits : First → Prop}
    {good : Second → Prop} (firsts : Answers first fits)
    (nexts : ∀ result, fits result → Answers (next result) good) :
    Answers (first >>= next) good := by
  intro before after answer run
  obtain ⟨result, middle, ran, run⟩ := (run_bind_succeeds_iff _ _ _ _ _).mp run
  exact nexts result (firsts before middle result ran) middle after answer run

theorem answers_after (first : Parser First) (next : First → Parser Second)
    {good : Second → Prop} (nexts : ∀ result, Answers (next result) good) :
    Answers (first >>= next) good :=
  answers_bind first next (answers_any first) fun result _ => nexts result

theorem answers_never (what : Expected) {good : First → Prop} :
    Answers (unexpected what) good :=
  fun before after result run => absurd run (unexpected_fails what before after result)

theorem answers_refused (what : Expected) (next : First → Parser Second) {good : Second → Prop} :
    Answers (unexpected what >>= next) good := by
  have never : Answers (unexpected what : Parser First) fun _ => False := answers_never what
  exact answers_bind _ _ never fun _ impossible => impossible.elim

theorem repeated_answers (step : Parser (Option (List Tree))) (good : List Tree → Prop)
    (none : good []) (append : ∀ items others, good items → good others → good (items ++ others))
    (steps : Answers step fun answer => good (answer.getD [])) : Answers (repeated step) good := by
  have upTo : ∀ count, Answers (repeatUpTo step count) good := by
    intro count
    induction count with
    | zero => exact answers_pure _ none
    | succ count induction =>
        refine answers_bind _ _ steps fun answer first => ?_
        cases answer with
        | none => exact answers_pure _ none
        | some items =>
            exact answers_bind _ _ induction fun later others =>
              answers_pure _ (append items later first others)
  exact answers_after _ _ fun count => upTo (count + 1)

end Combinators

def leafKinds : List NodeKind :=
  [.keyword, .operator, .punctuation, .assignOp, .variableName, .noneWord]

theorem take_answers (kind : NodeKind) (known : kind ∈ leafKinds) :
    Answers (take kind) Bare := by
  intro before after tree run
  rw [take_run] at run
  cases run
  exact bare_leaf kind (by revert kind; decide) _

theorem expect_answers (token : TokenKind) (kind : NodeKind) (known : kind ∈ leafKinds) :
    Answers (expect token kind) Bare := by
  refine answers_after _ _ fun next => ?_
  split
  · exact take_answers kind known
  · exact answers_never _

theorem expect_name_answers : Answers expectName Bare := by
  refine answers_after _ _ fun next => ?_
  split
  · exact take_answers .variableName (by decide)
  · exact answers_never _

theorem take_if_answers (token : TokenKind) (kind : NodeKind) (known : kind ∈ leafKinds) :
    Answers (takeIf token kind) fun answer => ∀ tree ∈ answer, tree.Bare := by
  refine answers_after _ _ fun next => ?_
  split
  · refine answers_bind _ _ (take_answers kind known) fun tree bare => answers_pure _ ?_
    rintro _ ⟨⟩
    exact bare
  · exact answers_pure _ fun _ impossible => by cases impossible

theorem expression_answers : Answers expression Bare := by
  intro before after tree run
  obtain ⟨_, _, whole⟩ := expression_takes before after tree run
  exact bare_of_grammar whole

theorem type_after_answers (mark : TokenKind) : Answers (typeAfter mark) Bare := by
  refine answers_bind _ _ (expect_answers mark _ (by split <;> decide)) fun sign first => ?_
  have typed : ∀ kind ∈ leafKinds,
      Answers (do return Tree.branch .typeDef [sign, ← take kind]) Bare := fun kind known =>
    answers_bind _ _ (take_answers kind known) fun name second =>
      answers_pure _ (bare_branch .typeDef (by decide) _ (by simp [first, second]))
  refine answers_after _ _ fun next => ?_
  split
  · exact typed .variableName (by decide)
  · exact typed .noneWord (by decide)
  · exact answers_never _

theorem type_if_answers (mark : TokenKind) :
    Answers (typeIf mark) fun trees => ∀ tree ∈ trees, tree.Bare := by
  refine answers_after _ _ fun next => ?_
  split
  · exact answers_bind _ _ (type_after_answers mark) fun tree bare =>
      answers_pure _ (by simpa using bare)
  · exact answers_pure _ (List.forall_mem_nil _)

theorem listed_answers (item : Parser (List Tree))
    (items : Answers item fun trees => ∀ tree ∈ trees, tree.Bare) (count : Nat) :
    Answers (parenthesized.listed item count) fun trees => ∀ tree ∈ trees, tree.Bare := by
  induction count with
  | zero => exact answers_pure _ (List.forall_mem_nil _)
  | succ count induction =>
      refine answers_after _ _ fun next => ?_
      split
      · exact answers_pure _ (List.forall_mem_nil _)
      · refine answers_bind _ _ items fun parts first => ?_
        refine answers_bind _ _ (take_if_answers .comma .punctuation (by decide))
          fun comma mark => ?_
        cases comma with
        | none => exact answers_pure _ first
        | some comma =>
            refine answers_bind _ _ induction fun later others => answers_pure _ ?_
            intro tree member
            rcases List.mem_append.mp member with here | there
            · exact first tree here
            · exact List.forall_mem_cons.mpr ⟨mark comma rfl, others⟩ tree there

theorem parenthesized_answers (kind : NodeKind) (known : kind ∉ NodeKind.members ∧ kind ≠ .body)
    (item : Parser (List Tree)) (items : Answers item fun trees => ∀ tree ∈ trees, tree.Bare) :
    Answers (parenthesized kind item) Bare := by
  refine answers_bind _ _ (expect_answers .leftParen .punctuation (by decide))
    fun opening first => answers_after _ _ fun count => ?_
  refine answers_bind _ _ (listed_answers item items (count + 1)) fun parts inside => ?_
  refine answers_bind _ _ (expect_answers .rightParen .punctuation (by decide))
    fun closing last => answers_pure _ (bare_branch kind known _ ?_)
  intro part member
  simp only [List.cons_append, List.mem_cons, List.mem_append, List.not_mem_nil, or_false] at member
  rcases member with rfl | here | rfl
  · exact first
  · exact inside part here
  · exact last

theorem parameters_answers : Answers parameters Bare := by
  refine parenthesized_answers .paramList (by decide) _ ?_
  refine answers_bind _ _ expect_name_answers fun name named => ?_
  exact answers_bind _ _ (type_if_answers .colon) fun declared typed =>
    answers_pure _ (List.forall_mem_cons.mpr ⟨named, typed⟩)

theorem bases_answers (depth : Nat) : Answers (arguments (expressionUpTo depth)) Bare := by
  refine parenthesized_answers .argList (by decide) _ ?_
  have expressions : Answers (expressionUpTo depth .expression) Bare := by
    intro before after tree run
    obtain ⟨_, _, whole⟩ := expression_up_to_takes depth .expression before after tree run
    exact bare_of_grammar whole
  exact answers_bind _ _ expressions fun tree bare => answers_pure _ (by simpa using bare)

theorem values_answer : Answers (repeated valueStep) fun trees => ∀ tree ∈ trees, tree.Bare := by
  refine repeated_answers _ _ (List.forall_mem_nil _)
    (fun items others first second => List.forall_mem_append.mpr ⟨first, second⟩) ?_
  refine answers_bind _ _ (take_if_answers .assign .assignOp (by decide)) fun sign mark => ?_
  cases sign with
  | none => exact answers_pure _ (List.forall_mem_nil _)
  | some sign =>
      exact answers_bind _ _ expression_answers fun value bare =>
        answers_pure _ (by simpa using ⟨mark sign rfl, bare⟩)

def AnswersMember (parser : Parser Tree) : Prop :=
  Answers parser fun tree => tree.kind ∈ NodeKind.members ∧ tree.Placed

section Statements

theorem simple_answers (kind : NodeKind) (isSimple : kind ∈ NodeKind.simple) (parts : List Tree)
    (bare : ∀ part ∈ parts, part.Bare) :
    AnswersMember (do endOfStatement; return Tree.branch kind parts) :=
  answers_after _ _ fun _ => answers_pure _
    ⟨List.mem_append_left _ isSimple, .simple kind _ parts isSimple bare⟩

theorem keyword_statement_answers (kind : NodeKind) (isSimple : kind ∈ NodeKind.simple) :
    AnswersMember (keywordStatement kind) :=
  answers_bind _ _ (take_answers .keyword (by decide)) fun keyword word =>
    simple_answers kind isSimple [keyword] (by simpa using word)

theorem return_statement_answers : AnswersMember returnStatement := by
  refine answers_bind _ _ (take_answers .keyword (by decide)) fun keyword word => ?_
  have ends : ∀ value : List Tree, (∀ tree ∈ value, tree.Bare) → AnswersMember (do
      endOfStatement
      return Tree.branch .returnStatement (keyword :: value)) := fun value bare =>
    simple_answers .returnStatement (by decide) _ (List.forall_mem_cons.mpr ⟨word, bare⟩)
  refine answers_after _ _ fun next => ?_
  split
  · exact ends [] (List.forall_mem_nil _)
  · exact ends [] (List.forall_mem_nil _)
  · exact ends [] (List.forall_mem_nil _)
  · exact answers_bind _ _ expression_answers fun value bare =>
      ends [value] (by simpa using bare)

theorem expression_or_assignment_answers : AnswersMember expressionOrAssignment := by
  rw [expression_or_assignment_eq]
  refine answers_bind _ _ expression_answers fun target first => ?_
  refine answers_bind _ _ (type_if_answers .colon) fun declared typed => ?_
  refine answers_bind _ _ values_answer fun values valued => ?_
  refine simple_answers _ (by split <;> decide) _ ?_
  exact List.forall_mem_append.mpr ⟨List.forall_mem_cons.mpr ⟨first, typed⟩, valued⟩

variable (parse : Parser Tree) (parses : AnswersMember parse)

include parses

theorem members_answer (ends : List TokenKind) : Answers (statementsUntil parse ends)
    fun trees => ∀ tree ∈ trees, tree.kind ∈ NodeKind.members ∧ tree.Placed := by
  rw [statements_until_eq]
  refine answers_after _ _ fun _ => repeated_answers _ _ (List.forall_mem_nil _)
    (fun items others first second => List.forall_mem_append.mpr ⟨first, second⟩) ?_
  refine answers_after _ _ fun next => ?_
  split
  · exact answers_pure _ (List.forall_mem_nil _)
  · exact answers_bind _ _ parses fun statement placed =>
      answers_after _ _ fun _ => answers_pure _ (by simpa using placed)

theorem block_answers : Answers (block parse) fun tree => tree.kind = .body ∧ tree.Placed := by
  refine answers_bind _ _ (expect_answers .colon .punctuation (by decide)) fun colon mark => ?_
  have inner : Answers (do
      advance
      let statements ← statementsUntil parse [.dedent, .endOfFile]
      if (← peek).kind = .dedent then advance
      return Tree.branch .body (colon :: statements)) fun tree =>
        tree.kind = .body ∧ tree.Placed := by
    refine answers_after _ _ fun _ => ?_
    refine answers_bind _ _ (members_answer parse parses _) fun members placed => ?_
    have body : (Tree.branch .body (colon :: members)).Placed :=
      .body _ colon members mark (fun member there => (placed member there).1)
        fun member there => (placed member there).2
    refine answers_after _ _ fun next => ?_
    split
    · exact answers_after _ _ fun _ => answers_pure _ ⟨rfl, body⟩
    · exact answers_pure _ ⟨rfl, body⟩
  refine answers_after _ _ fun next => ?_
  split
  · exact answers_refused .blockNewline _
  · refine answers_after _ _ fun _ => answers_after _ _ fun next => ?_
    split
    · refine answers_after _ _ fun next before after tree run => ?_
      cases run
    · exact inner

theorem guarded_answers : Answers (guarded parse) fun parts =>
    Arranged parts ∧ ∀ front ∈ parts.head?, front.Bare := by
  refine answers_bind _ _ expression_answers fun test bare => ?_
  refine answers_bind _ _ (block_answers parse parses) fun body placed => answers_pure _ ?_
  refine ⟨.cons bare (.block placed.1 placed.2 .nil fun _ impossible => by cases impossible), ?_⟩
  rintro _ ⟨⟩
  exact bare

theorem branches_answer : Answers (repeated (branchStep parse)) fun parts =>
    Arranged parts ∧ ∀ front ∈ parts.head?, front.Bare := by
  refine repeated_answers _ _ ⟨.nil, fun _ impossible => by cases impossible⟩ ?_ ?_
  · intro items others first second
    refine ⟨first.1.append second.1 second.2, fun front isFront => ?_⟩
    cases items with
    | nil => exact second.2 front isFront
    | cons head rest => exact first.2 front isFront
  · refine answers_bind _ _ (take_if_answers .elifWord .keyword (by decide)) fun word bare => ?_
    cases word with
    | none => exact answers_pure _ ⟨.nil, fun _ impossible => by cases impossible⟩
    | some word =>
        refine answers_bind _ _ (guarded_answers parse parses) fun parts arranged => ?_
        refine answers_pure _ ⟨.cons (bare word rfl) arranged.1, ?_⟩
        rintro _ ⟨⟩
        exact bare word rfl

theorem if_statement_answers : AnswersMember (ifStatement parse) := by
  rw [if_statement_eq]
  refine answers_bind _ _ (take_answers .keyword (by decide)) fun keyword word => ?_
  refine answers_bind _ _ (guarded_answers parse parses) fun first guards => ?_
  refine answers_bind _ _ (branches_answer parse parses) fun others branches => ?_
  have whole : ∀ last, Arranged last → (∀ front ∈ last.head?, front.Bare) →
      AnswersMember (pure (Tree.branch .ifStatement (keyword :: first ++ others ++ last))) := by
    intro last arranged front
    refine answers_pure _ (placed_compound .ifStatement (by decide) keyword
      (first ++ others ++ last) word ?_)
    exact (guards.1.append branches.1 branches.2).append arranged front
  refine answers_bind _ _ (take_if_answers .elseWord .keyword (by decide)) fun word bare => ?_
  cases word with
  | none => exact whole [] .nil fun _ impossible => by cases impossible
  | some word =>
      refine answers_bind _ _ (block_answers parse parses) fun body placed => ?_
      refine whole [word, body] (.cons (bare word rfl) ?_) ?_
      · exact .block placed.1 placed.2 .nil fun _ impossible => by cases impossible
      · rintro _ ⟨⟩
        exact bare word rfl

theorem while_statement_answers : AnswersMember (whileStatement parse) := by
  refine answers_bind _ _ (take_answers .keyword (by decide)) fun keyword word => ?_
  exact answers_bind _ _ (guarded_answers parse parses) fun parts guards =>
    answers_pure _ (placed_compound .whileStatement (by decide) keyword parts word guards.1)

theorem definition_answers (kind : NodeKind) (known : kind ∈ NodeKind.compound)
    (keyword : Tree) (header : List Tree) (word : keyword.Bare)
    (bare : ∀ part ∈ header, part.Bare) : AnswersMember (do
      let body ← block parse
      return Tree.branch kind (keyword :: (header ++ [body]))) := by
  refine answers_bind _ _ (block_answers parse parses) fun body placed =>
    answers_pure _ (placed_compound kind known keyword _ word (.all bare ?_))
  exact .block placed.1 placed.2 .nil fun _ impossible => by cases impossible

theorem function_definition_answers : AnswersMember (functionDefinition parse) := by
  refine answers_bind _ _ (take_answers .keyword (by decide)) fun keyword word => ?_
  refine answers_bind _ _ expect_name_answers fun name named => ?_
  refine answers_bind _ _ parameters_answers fun params listed => ?_
  refine answers_bind _ _ (type_if_answers .arrow) fun result typed => ?_
  exact definition_answers parse parses .functionDefinition (by decide) keyword
    (name :: params :: result) word
    (List.forall_mem_cons.mpr ⟨named, List.forall_mem_cons.mpr ⟨listed, typed⟩⟩)

theorem class_definition_answers : AnswersMember (classDefinition parse) := by
  refine answers_bind _ _ (take_answers .keyword (by decide)) fun keyword word => ?_
  refine answers_bind _ _ expect_name_answers fun name named => ?_
  -- The bases of a class are never read, so their bareness comes from the grammar alone.
  have ends : ∀ bases : List Tree, (∀ tree ∈ bases, tree.Bare) → AnswersMember (do
      let body ← block parse
      return Tree.branch .classDefinition (keyword :: name :: bases ++ [body])) :=
    fun bases listed => definition_answers parse parses .classDefinition (by decide) keyword
      (name :: bases) word (List.forall_mem_cons.mpr ⟨named, listed⟩)
  refine answers_after _ _ fun next => ?_
  split
  · refine answers_after _ _ fun depth => ?_
    exact answers_bind _ _ (bases_answers depth) fun list bare => ends [list] (by simpa using bare)
  · exact ends [] (List.forall_mem_nil _)

theorem statement_of_answers : AnswersMember (statementOf parse) := by
  refine answers_after _ _ fun next => ?_
  split
  · exact function_definition_answers parse parses
  · exact class_definition_answers parse parses
  · exact if_statement_answers parse parses
  · exact while_statement_answers parse parses
  · exact return_statement_answers
  · exact keyword_statement_answers .passStatement (by decide)
  · exact keyword_statement_answers .breakStatement (by decide)
  · exact keyword_statement_answers .continueStatement (by decide)
  · exact expression_or_assignment_answers

end Statements

theorem statement_answers : AnswersMember statement := by
  have upTo : ∀ depth, AnswersMember (statementUpTo depth) := by
    intro depth
    induction depth with
    | zero => exact answers_never _
    | succ depth induction => exact statement_of_answers _ induction
  exact answers_after _ _ upTo

end Parser

/-- The tree of a source is a script of statements and definitions whose blocks are in place. -/
theorem members_of_source_placed (source : List Char) (tree : Tree)
    (parsed : Tree.ofSource source = .ok tree) : tree.kind = .script ∧
      ∀ member ∈ tree.children, member.kind ∈ NodeKind.members ∧ member.Placed := by
  obtain ⟨members, after, run, rfl⟩ := tree_of_source_run source tree parsed
  exact ⟨rfl, Parser.members_answer _ Parser.statement_answers _ _ after members run⟩

end ScriptWasm
