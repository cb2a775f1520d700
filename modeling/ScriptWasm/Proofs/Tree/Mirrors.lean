import ScriptWasm.Proofs.Program.Retelling
import ScriptWasm.Proofs.Token.Padding
import ScriptWasm.Proofs.Tree.Lossless

/-!
Parsers that read two streams side by side. A parser mirrors another one if it answers where the
other one does. The streams may differ by newlines in front of the dedents and the end of the file,
where no parser but those of line ends looks for them.
-/

namespace ScriptWasm

set_option autoImplicit false

theorem Lexeme.Twin.same_word {source edited : List Char} {lexeme copy : Lexeme}
    (twin : lexeme.Twin source edited copy) (node : NodeKind)
    (isLeaf : lexeme.kind ∉ leaflessKinds) :
    (Tree.leaf node lexeme.span).SameWord source edited (.leaf node copy.span) where
  kind := rfl
  text := by
    rw [text_of_leaf edited node copy twin.copied,
      text_of_leaf source node lexeme twin.sound]
    exact twin.text isLeaf
  alone := rfl
  copied := rfl

namespace TokenStream

variable (source edited : List Char)

def SameLeft (before start : TokenStream) : Prop :=
  Respaced source edited before.rest start.rest

def SameLines (before start : TokenStream) : Prop :=
  Respaced source edited (before.rest.dropWhile (·.kind = .newline))
    (start.rest.dropWhile (·.kind = .newline))

structure Facing (kind other : TokenKind) (before start : TokenStream) : Prop where
  left : SameLeft source edited before start
  kind : before.next.kind = kind
  copied : start.next.kind = other

structure Settled (before start : TokenStream) : Prop where
  left : SameLeft source edited before start
  kind : start.next.kind = before.next.kind

/-- Streams that are alike, with fewer lexemes left in the first than a bound. -/
structure Bounded (count : Nat) (before start : TokenStream) : Prop where
  left : SameLeft source edited before start
  few : before.rest.length < count

section Heads

variable {source edited} {before start : TokenStream}

/-- The second stream goes on as the first one does, or has a newline in front. -/
theorem SameLeft.heads (left : SameLeft source edited before start) :
    (start.next.kind = before.next.kind ∧
      (before.next.kind ≠ .endOfFile → before.next.Twin source edited start.next) ∧
      SameLeft source edited before.past start.past) ∨
    (start.next.kind = .newline ∧
      (before.next.kind = .dedent ∨ before.next.kind = .endOfFile) ∧
      SameLeft source edited before start.past) := by
  rcases before with ⟨first, last⟩
  rcases start with ⟨second, final⟩
  have left : Respaced source edited first second := left
  cases left with
  | nil => exact Or.inl ⟨rfl, fun going => absurd rfl going, Respaced.nil⟩
  | cons head other first second twin later => exact Or.inl ⟨twin.kind, fun _ => twin, later⟩
  | newline extra first second isNewline closing later =>
      refine Or.inr ⟨isNewline, ?_, later⟩
      cases first with
      | nil => exact Or.inr rfl
      | cons head rest => exact closing head (by simp)

/-- Where both streams have the same in front, they go on alike. -/
theorem Settled.past (settled : Settled source edited before start) :
    (before.next.kind ≠ .endOfFile → before.next.Twin source edited start.next) ∧
      SameLeft source edited before.past start.past := by
  rcases settled.left.heads with ⟨_, twin, past⟩ | ⟨isNewline, closes, _⟩
  · exact ⟨twin, past⟩
  · rw [settled.kind] at isNewline
    rw [isNewline] at closes
    exact absurd closes (by decide)

theorem SameLeft.next_kind_iff (left : SameLeft source edited before start) (kind : TokenKind)
    (inner : kind ∉ [TokenKind.newline, .dedent, .endOfFile]) :
    start.next.kind = kind ↔ before.next.kind = kind := by
  rcases left.heads with ⟨same, _⟩ | ⟨isNewline, closes, _⟩
  · rw [same]
  · constructor
    · intro isKind
      rw [← isKind, isNewline] at inner
      exact absurd inner (by decide)
    · rintro rfl
      rcases closes with isKind | isKind <;> rw [isKind] at inner <;> exact absurd inner (by decide)

theorem SameLeft.settled (left : SameLeft source edited before start)
    (inner : before.next.kind ∉ [TokenKind.newline, .dedent, .endOfFile]) :
    Settled source edited before start :=
  ⟨left, (left.next_kind_iff _ inner).mpr rfl⟩

theorem SameLeft.lines (left : SameLeft source edited before start) :
    SameLines source edited before start :=
  Respaced.skip left

theorem SameLeft.length_le (left : SameLeft source edited before start) :
    before.rest.length ≤ start.rest.length := by
  have longer : ∀ first second, Respaced source edited first second →
      first.length ≤ second.length := by
    intro first second alike
    induction alike with
    | nil => exact Nat.le_refl _
    | cons head other first second _ _ induction => simpa using induction
    | newline extra first second _ _ _ induction => simp; omega
  exact longer _ _ left

theorem leaf_is_inner (kind : TokenKind) (isLeaf : kind ∉ leaflessKinds) :
    kind ∉ [TokenKind.newline, .dedent, .endOfFile] := by
  have leafless : ∀ kind ∈ [TokenKind.newline, .dedent, .endOfFile], kind ∈ leaflessKinds := by
    decide
  exact fun member => isLeaf (leafless kind member)

theorem SameLeft.leaf (left : SameLeft source edited before start)
    (isLeaf : before.next.kind ∉ leaflessKinds) :
    start.next.kind = before.next.kind ∧ before.next.Twin source edited start.next ∧
      SameLeft source edited before.past start.past := by
  have inner := leaf_is_inner _ isLeaf
  have settled := left.settled inner
  obtain ⟨twin, past⟩ := settled.past
  exact ⟨settled.kind, twin fun isEnd => inner (by rw [isEnd]; decide), past⟩

theorem SameLeft.leaf_iff (left : SameLeft source edited before start)
    (kind : TokenKind) (isLeaf : kind ∉ leaflessKinds) :
    start.next.kind = kind ↔ before.next.kind = kind :=
  left.next_kind_iff kind (leaf_is_inner kind isLeaf)

theorem SameLeft.among_iff (left : SameLeft source edited before start) (kinds : List TokenKind)
    (areLeaves : ∀ kind ∈ kinds, kind ∉ leaflessKinds) :
    start.next.kind ∈ kinds ↔ before.next.kind ∈ kinds :=
  ⟨fun there => by rwa [(left.leaf_iff _ (areLeaves _ there)).mp rfl],
    fun there => by rwa [(left.leaf_iff _ (areLeaves _ there)).mpr rfl]⟩

theorem SameLeft.is_word_iff (left : SameLeft source edited before start) (word : String) :
    start.next.IsWord word ↔ before.next.IsWord word := by
  have names := left.leaf_iff .name (by decide)
  by_cases isName : before.next.kind = .name
  · have isLeaf : before.next.kind ∉ leaflessKinds := by rw [isName]; decide
    obtain ⟨kinds, twin, _⟩ := left.leaf isLeaf
    rw [Lexeme.IsWord, Lexeme.IsWord, kinds, twin.text isLeaf]
  · exact ⟨fun isWord => absurd (names.mp isWord.1) isName, fun isWord => absurd isWord.1 isName⟩

theorem SameLeft.past_word (left : SameLeft source edited before start) (word : String)
    (isWord : before.next.IsWord word) : SameLeft source edited before.past start.past :=
  (left.leaf (by rw [isWord.1]; decide)).2.2

end Heads

end TokenStream

namespace Parser

open TokenStream

/-- On streams that stand in a relation, the second parser answers where the first one does, with a
related answer. -/
def Mirrors {First Second : Type} (meets leaves : TokenStream → TokenStream → Prop)
    (related : First → Second → Prop) (first : Parser First) (second : Parser Second) : Prop :=
  ∀ before start, meets before start →
    Echoes (fun result answer => related result.1 answer.1 ∧ leaves result.2 answer.2)
      (first.run before) (second.run start)

section Rules

variable {First Second Value Answer : Type}
variable {meets between leaves : TokenStream → TokenStream → Prop}
variable {related : First → Second → Prop} {fits : Value → Answer → Prop}

theorem mirrors_step (head : Parser Value) (again : Parser Answer) (next : Value → Parser First)
    (others : Answer → Parser Second) (before start : TokenStream)
    (heads : Mirrors meets between fits head again) (meet : meets before start)
    (tails : ∀ value middle answer stop, head.run before = .ok (value, middle) →
      fits value answer → between middle stop →
      Echoes (fun result answer => related result.1 answer.1 ∧ leaves result.2 answer.2)
        ((next value).run middle) ((others answer).run stop)) :
    Echoes (fun result answer => related result.1 answer.1 ∧ leaves result.2 answer.2)
      ((head >>= next).run before) ((again >>= others).run start) := by
  intro result run
  obtain ⟨value, middle, ran, run⟩ := (run_bind_succeeds_iff _ _ _ _ _).mp run
  obtain ⟨⟨answer, stop⟩, answered, fit, holds⟩ := heads before start meet _ ran
  rw [StateT.run_bind, answered, ok_bind]
  exact tails value middle answer stop ran fit holds result run

theorem mirrors_bind (head : Parser Value) (again : Parser Answer) (next : Value → Parser First)
    (others : Answer → Parser Second) (heads : Mirrors meets between fits head again)
    (tails : ∀ value answer, fits value answer →
      Mirrors between leaves related (next value) (others answer)) :
    Mirrors meets leaves related (head >>= next) (again >>= others) :=
  fun before start meet => mirrors_step _ _ _ _ before start heads meet
    fun value middle answer stop _ fit holds => tails value answer fit middle stop holds

theorem mirrors_pure (value : First) (answer : Second) (holds : related value answer)
    (stays : ∀ before start, meets before start → leaves before start) :
    Mirrors meets leaves related (pure value) (pure answer) :=
  fun before start meet => echoes_pure _ _ ⟨holds, stays before start meet⟩

theorem mirrors_last (head : Parser Value) (again : Parser Answer) (result : Value → First)
    (copy : Answer → Second) (heads : Mirrors meets leaves fits head again)
    (holds : ∀ value answer, fits value answer → related (result value) (copy answer)) :
    Mirrors meets leaves related (do return result (← head)) (do return copy (← again)) :=
  mirrors_bind _ _ _ _ heads fun value answer fit =>
    mirrors_pure _ _ (holds value answer fit) fun _ _ meet => meet

theorem mirrors_answers (first : Parser Value) (second : Parser Answer)
    {weaker : Value → Answer → Prop} (mirrors : Mirrors meets leaves fits first second)
    (implies : ∀ value answer, fits value answer → weaker value answer) :
    Mirrors meets leaves weaker first second :=
  fun before start meet => echoes_mono _ (mirrors before start meet) fun result answer holds =>
    ⟨implies result.1 answer.1 holds.1, holds.2⟩

theorem mirrors_never (first : Parser First) (second : Parser Second)
    (never : ∀ before after result, first.run before ≠ .ok (result, after)) :
    Mirrors meets leaves related first second :=
  fun before _ _ result run => absurd run (never before result.2 result.1)

theorem mirrors_fails (head : Parser Value) (next : Value → Parser First) (second : Parser Second)
    (never : ∀ before after result, head.run before ≠ .ok (result, after)) :
    Mirrors meets leaves related (head >>= next) second := by
  refine mirrors_never _ _ fun before after result run => ?_
  obtain ⟨value, middle, ran, _⟩ := (run_bind_succeeds_iff _ _ _ _ _).mp run
  exact never before middle value ran

theorem mirrors_early {more : TokenStream → TokenStream → Prop} (first : Parser First)
    (second : Parser Second) (mirrors : Mirrors more leaves related first second)
    (implies : ∀ before start, meets before start → more before start) :
    Mirrors meets leaves related first second :=
  fun before start meet => mirrors before start (implies before start meet)

variable {source edited : List Char}

theorem mirrors_peek (choice : Lexeme → Parser First) (others : Lexeme → Parser Second)
    (same : ∀ lexeme copy, copy.kind = lexeme.kind →
      Mirrors (Facing source edited lexeme.kind lexeme.kind) leaves related (choice lexeme)
        (others copy))
    (closing : ∀ lexeme copy, lexeme.kind = .dedent ∨ lexeme.kind = .endOfFile →
      copy.kind = .newline → Mirrors (Facing source edited lexeme.kind .newline) leaves related
        (choice lexeme) (others copy)) :
    Mirrors (SameLeft source edited) leaves related (peek >>= choice) (peek >>= others) := by
  intro before start left
  rw [StateT.run_bind, peek_run, ok_bind, StateT.run_bind, peek_run, ok_bind]
  rcases left.heads with ⟨kinds, _⟩ | ⟨isNewline, closes, _⟩
  · exact same _ _ kinds before start ⟨left, rfl, kinds⟩
  · exact closing _ _ closes isNewline before start ⟨left, rfl, isNewline⟩

theorem mirrors_peek_settled (choice : Lexeme → Parser First) (others : Lexeme → Parser Second)
    (same : ∀ lexeme copy, copy.kind = lexeme.kind →
      Mirrors (Facing source edited lexeme.kind lexeme.kind) leaves related (choice lexeme)
        (others copy)) :
    Mirrors (Settled source edited) leaves related (peek >>= choice) (peek >>= others) := by
  intro before start settled
  rw [StateT.run_bind, peek_run, ok_bind, StateT.run_bind, peek_run, ok_bind]
  exact same _ _ settled.kind before start ⟨settled.left, rfl, settled.kind⟩

theorem mirrors_remaining (choice : Nat → Parser First) (others : Nat → Parser Second)
    (choices : ∀ count more, count ≤ more →
      Mirrors (Bounded source edited (count + 1)) leaves related (choice count) (others more)) :
    Mirrors (SameLeft source edited) leaves related (remaining >>= choice)
      (remaining >>= others) :=
  fun before start left =>
    choices _ _ left.length_le before start ⟨left, Nat.lt_succ_self _⟩

end Rules

section Tokens

variable {source edited : List Char}

theorem take_mirrors (kind : TokenKind) (node : NodeKind) (isLeaf : kind ∉ leaflessKinds) :
    Mirrors (Facing source edited kind kind) (SameLeft source edited)
      (Tree.SameWord source edited) (take node) (take node) := by
  intro before start facing
  have left := facing.left
  obtain ⟨_, twin, past⟩ := left.leaf (by rwa [facing.kind])
  rw [take_run, take_run]
  exact echoes_pure _ _ ⟨twin.same_word node (by rwa [facing.kind]), past⟩

theorem advance_mirrors (kind : TokenKind) :
    Mirrors (Facing source edited kind kind) (SameLeft source edited) (fun _ _ => True) advance
      advance := by
  intro before start facing
  have settled : Settled source edited before start :=
    ⟨facing.left, facing.copied.trans facing.kind.symm⟩
  rw [advance_run, advance_run]
  exact echoes_pure _ _ ⟨trivial, settled.past.2⟩

/-- A newline that the second stream alone has in front. -/
theorem advance_past_blank (kind : TokenKind) (closes : kind = .dedent ∨ kind = .endOfFile) :
    Mirrors (Facing source edited kind .newline) (SameLeft source edited) (fun _ _ => True)
      (return ()) advance := by
  intro before start facing
  rw [advance_run]
  rcases facing.left.heads with ⟨kinds, _⟩ | ⟨_, _, past⟩
  · rw [facing.kind, facing.copied] at kinds
    rw [← kinds] at closes
    exact absurd closes (by decide)
  · exact echoes_pure _ _ ⟨trivial, past⟩

theorem expect_mirrors (kind : TokenKind) (node : NodeKind) (isLeaf : kind ∉ leaflessKinds) :
    Mirrors (SameLeft source edited) (SameLeft source edited) (Tree.SameWord source edited)
      (expect kind node) (expect kind node) := by
  rintro before start left ⟨tree, after⟩ run
  obtain ⟨isKind, rfl, rfl⟩ := (expect_succeeds_iff _ _ _ _ _).mp run
  obtain ⟨kinds, twin, past⟩ := left.leaf (by rwa [isKind])
  exact ⟨_, (expect_succeeds_iff _ _ _ _ _).mpr ⟨kinds.trans isKind, rfl, rfl⟩,
    twin.same_word node (by rwa [isKind]), past⟩

theorem expect_name_mirrors :
    Mirrors (SameLeft source edited) (SameLeft source edited) (Tree.SameWord source edited)
      expectName expectName := by
  rintro before start left ⟨tree, after⟩ run
  obtain ⟨isName, rfl, rfl⟩ := (expect_name_succeeds_iff _ _ _).mp run
  have isLeaf : before.next.kind ∉ leaflessKinds := by rw [isName]; decide
  obtain ⟨kinds, twin, past⟩ := left.leaf isLeaf
  exact ⟨_, (expect_name_succeeds_iff _ _ _).mpr ⟨kinds.trans isName, rfl, rfl⟩,
    twin.same_word _ isLeaf, past⟩

theorem take_if_mirrors (kind : TokenKind) (node : NodeKind) (isLeaf : kind ∉ leaflessKinds) :
    Mirrors (SameLeft source edited) (SameLeft source edited)
      (Option.Rel (Tree.SameWord source edited)) (takeIf kind node) (takeIf kind node) := by
  intro before start left
  rw [take_if_run, take_if_run]
  by_cases isKind : before.next.kind = kind
  · obtain ⟨kinds, twin, past⟩ := left.leaf (by rwa [isKind])
    rw [if_pos isKind, if_pos (kinds.trans isKind)]
    exact echoes_pure _ _ ⟨.some (twin.same_word node (by rwa [isKind])), past⟩
  · rw [if_neg isKind, if_neg (mt (left.leaf_iff kind isLeaf).mp isKind)]
    exact echoes_pure _ _ ⟨.none, left⟩

theorem operator_among_mirrors (kinds : List TokenKind)
    (areLeaves : ∀ kind ∈ kinds, kind ∉ leaflessKinds) :
    Mirrors (SameLeft source edited) (SameLeft source edited)
      (Option.Rel (Tree.SameWord source edited)) (operatorAmong kinds) (operatorAmong kinds) := by
  intro before start left
  rw [operator_among_run, operator_among_run]
  by_cases member : before.next.kind ∈ kinds
  · obtain ⟨same, twin, past⟩ := left.leaf (areLeaves _ member)
    rw [if_pos member, if_pos (by rwa [same])]
    exact echoes_pure _ _ ⟨.some (twin.same_word _ (areLeaves _ member)), past⟩
  · rw [if_neg member, if_neg (mt (left.among_iff kinds areLeaves).mp member)]
    exact echoes_pure _ _ ⟨.none, left⟩

theorem operator_word_mirrors (word : String) :
    Mirrors (SameLeft source edited) (SameLeft source edited)
      (Option.Rel (Tree.SameWord source edited)) (operatorWord word) (operatorWord word) := by
  intro before start left
  have same := left.is_word_iff word
  rw [operator_word_run, operator_word_run]
  change Echoes _ (if before.next.IsWord word then _ else _)
    (if start.next.IsWord word then _ else _)
  by_cases isWord : before.next.IsWord word
  · have isLeaf : before.next.kind ∉ leaflessKinds := by rw [isWord.1]; decide
    obtain ⟨_, twin, past⟩ := left.leaf isLeaf
    rw [if_pos isWord, if_pos (same.mpr isWord)]
    exact echoes_pure _ _ ⟨.some (twin.same_word _ isLeaf), past⟩
  · rw [if_neg isWord, if_neg (mt same.mp isWord)]
    exact echoes_pure _ _ ⟨.none, left⟩

theorem next_after_newlines (lexemes : List Lexeme) (last : Span) :
    (TokenStream.mk (lexemes.dropWhile (·.kind = .newline)) last).next.kind ≠ .newline := by
  have stopped := List.head?_dropWhile_not (fun lexeme : Lexeme => lexeme.kind = .newline) lexemes
  cases left : lexemes.dropWhile (·.kind = .newline) with
  | nil => exact nofun
  | cons head rest =>
      rw [left] at stopped
      simpa using stopped

theorem skip_newlines_mirrors :
    Mirrors (SameLines source edited) (Settled source edited) (fun _ _ => True) skipNewlines
      skipNewlines := by
  intro before start lines
  obtain ⟨last, skipped⟩ := skip_newlines_rest before
  obtain ⟨final, passed⟩ := skip_newlines_rest start
  rw [skipped, passed]
  have left : SameLeft source edited ⟨before.rest.dropWhile (·.kind = .newline), last⟩
      ⟨start.rest.dropWhile (·.kind = .newline), final⟩ := lines
  refine echoes_pure _ _ ⟨trivial, left, ?_⟩
  rcases left.heads with ⟨same, _⟩ | ⟨isNewline, _⟩
  · exact same
  · exact absurd isNewline (next_after_newlines start.rest final)

theorem end_of_statement_mirrors :
    Mirrors (SameLeft source edited) (SameLeft source edited) (fun _ _ => True) endOfStatement
      endOfStatement := by
  refine mirrors_peek _ _ (fun lexeme copy kinds => ?_) fun lexeme copy closes isNewline => ?_
  · rw [kinds]
    split
    · rename_i isNewline
      rw [isNewline]
      exact advance_mirrors .newline
    · exact mirrors_pure _ _ trivial fun _ _ facing => facing.left
    · exact mirrors_pure _ _ trivial fun _ _ facing => facing.left
    · exact mirrors_never _ _ (unexpected_fails _)
  · have blank : Mirrors (Facing source edited lexeme.kind .newline) (SameLeft source edited)
        (fun _ _ => True) (return ()) advance := advance_past_blank lexeme.kind closes
    rcases closes with isKind | isKind <;> simpa only [isKind, isNewline] using blank

def SameOperator (source edited : List Char) (sign mark : Tree) : Prop :=
  ∀ op, Expr.binaryOpOfTree source sign = .ok op → Expr.binaryOpOfTree edited mark = .ok op

theorem same_operator_of_word (sign mark : Tree) (same : sign.SameWord source edited mark) :
    SameOperator source edited sign mark := by
  intro op found
  rw [binary_op_of_tree_succeeds_iff] at found ⊢
  rwa [same.kind, same.text]

theorem one_token_mirrored {before start : TokenStream} (left : SameLeft source edited before start)
    (isLeaf : before.next.kind ∉ leaflessKinds) :
    Option.Rel (SameOperator source edited) (some (.leaf .operator before.next.span))
        (some (.leaf .operator start.next.span)) ∧
      SameLeft source edited before.past start.past := by
  obtain ⟨_, twin, past⟩ := left.leaf isLeaf
  exact ⟨.some (same_operator_of_word _ _ (twin.same_word _ isLeaf)), past⟩

/-- An operator of two words denotes none. -/
theorem two_words_mirrored {before start : TokenStream} (left : SameLeft source edited before start)
    (word later : String) (isWord : before.next.IsWord word)
    (isLater : before.past.next.IsWord later) (known : later = "not" ∨ later = "in") :
    Option.Rel (SameOperator source edited)
        (some (.leaf .operator (before.next.span.through before.past.next.span)))
        (some (.leaf .operator (start.next.span.through start.past.next.span))) ∧
      SameLeft source edited before.past.past start.past.past := by
  have past := left.past_word word isWord
  have isLeaf : before.past.next.kind ∉ leaflessKinds := by rw [isLater.1]; decide
  obtain ⟨_, twin, later⟩ := past.leaf isLeaf
  refine ⟨.some fun op found => ?_, later⟩
  exact absurd found (two_words_denote_no_operator source _ _ twin.sound (by rwa [isLater.2]) op)

theorem comparison_operator_mirrors :
    Mirrors (SameLeft source edited) (SameLeft source edited)
      (Option.Rel (SameOperator source edited)) comparisonOperator comparisonOperator := by
  intro before start left
  have areLeaves : ∀ kind ∈ [TokenKind.equal, .notEqual, .less, .greater, .lessEqual,
      .greaterEqual], kind ∉ leaflessKinds := by decide
  have wordIsLeaf : ∀ word, before.next.IsWord word → before.next.kind ∉ leaflessKinds := by
    intro word isWord
    rw [isWord.1]
    decide
  rw [comparison_operator_run, comparison_operator_run]
  simp only [left.among_iff _ areLeaves, left.is_word_iff]
  split
  · rename_i compares
    exact echoes_pure _ _ (one_token_mirrored left (areLeaves _ compares))
  split
  · rename_i isIn
    exact echoes_pure _ _ (one_token_mirrored left (wordIsLeaf "in" isIn))
  split
  · rename_i isIs
    simp only [(left.past_word "is" isIs).is_word_iff]
    split
    · rename_i isNot
      exact echoes_pure _ _ (two_words_mirrored left "is" "not" isIs isNot (Or.inl rfl))
    · exact echoes_pure _ _ (one_token_mirrored left (wordIsLeaf "is" isIs))
  split
  · rename_i isNot
    simp only [(left.past_word "not" isNot).is_word_iff]
    split
    · rename_i isIn
      exact echoes_pure _ _ (two_words_mirrored left "not" "in" isNot isIn (Or.inr rfl))
    · exact echoes_failure _
  · exact echoes_pure _ _ ⟨.none, left⟩

end Tokens

section Loops

variable {source edited : List Char}

/-- Steps that extend two trees side by side, where each step of the first takes a lexeme. -/
theorem extended_mirrors (good : Tree → Tree → Prop) (step other : Tree → Parser (Option Tree))
    (steps : ∀ tree copy, good tree copy →
      Mirrors (SameLeft source edited) (SameLeft source edited) (Option.Rel good) (step tree)
        (other copy))
    (shrinks : ∀ tree before after larger, (step tree).run before = .ok (some larger, after) →
      after.rest.length < before.rest.length) (tree copy : Tree) (same : good tree copy) :
    Mirrors (SameLeft source edited) (SameLeft source edited) good (extended step tree)
      (extended other copy) := by
  have upTo : ∀ count more tree copy, good tree copy → count ≤ more →
      Mirrors (Bounded source edited count) (SameLeft source edited) good
        (extendUpTo step count tree) (extendUpTo other more copy) := by
    intro count
    induction count with
    | zero => exact fun _ _ _ _ _ _ _ bounded => absurd bounded.few (Nat.not_lt_zero _)
    | succ count induction =>
        intro more tree copy same enough before start bounded
        obtain ⟨less, rfl⟩ : ∃ less, more = less + 1 := ⟨more - 1, by omega⟩
        rw [extendUpTo, extendUpTo]
        refine mirrors_step _ _ _ _ before start (steps tree copy same) bounded.left
          fun answer middle found stop ran fits left => ?_
        cases fits with
        | none => exact echoes_pure _ _ ⟨same, left⟩
        | some larger =>
            have fewer := shrinks tree before middle _ ran
            have few := bounded.few
            exact induction less _ _ larger (by omega) middle stop ⟨left, by omega⟩
  exact mirrors_remaining _ _ fun count more enough =>
    upTo (count + 1) (more + 1) tree copy same (Nat.succ_le_succ enough)

/-- Steps that collect parts side by side, under an invariant of the streams. -/
theorem repeated_mirrors (invariant : TokenStream → TokenStream → Prop)
    (fits good : List Tree → List Tree → Prop) (step other : Parser (Option (List Tree)))
    (steps : Mirrors invariant invariant (Option.Rel fits) step other)
    (alike : ∀ before start, invariant before start → SameLeft source edited before start)
    (shrinks : ∀ before after items, step.run before = .ok (some items, after) →
      after.rest.length < before.rest.length)
    (none : good [] [])
    (more : ∀ items copies rest others, fits items copies → good rest others →
      good (items ++ rest) (copies ++ others)) :
    Mirrors invariant invariant good (repeated step) (repeated other) := by
  -- The second parser has no fewer lexemes than the first, so its count is not the smaller one.
  have upTo : ∀ count again, count ≤ again →
      Mirrors (fun before start => invariant before start ∧ before.rest.length < count) invariant
        good (repeatUpTo step count) (repeatUpTo other again) := by
    intro count
    induction count with
    | zero => exact fun _ _ _ _ bounded => absurd bounded.2 (Nat.not_lt_zero _)
    | succ count induction =>
        intro again enough before start bounded
        obtain ⟨less, rfl⟩ : ∃ less, again = less + 1 := ⟨again - 1, by omega⟩
        rw [repeatUpTo, repeatUpTo]
        refine mirrors_step _ _ _ _ before start steps bounded.1
          fun answer middle found stop ran same holds => ?_
        cases same with
        | none => exact echoes_pure _ _ ⟨none, holds⟩
        | some items =>
            -- The first parser took a lexeme, so that it stops before its count is used up.
            have fewer := shrinks before middle _ ran
            have few := bounded.2
            exact mirrors_last _ _ _ _ (induction less (by omega))
              (fun rest others => more _ _ rest others items) middle stop ⟨holds, by omega⟩
  intro before start holds
  rw [repeated, StateT.run_bind, remaining_run, ok_bind, repeated, StateT.run_bind, remaining_run,
    ok_bind]
  exact upTo _ _ (Nat.succ_le_succ (alike before start holds).length_le) before start
    ⟨holds, Nat.lt_succ_self _⟩

/-- A parser never gives lexemes back. -/
theorem takes_length_le {Result : Type} (parser : Parser Result)
    (good : Result → List Lexeme → Prop) (takes : Takes parser good) (before after : TokenStream)
    (result : Result) (run : parser.run before = .ok (result, after)) :
    after.rest.length ≤ before.rest.length := by
  obtain ⟨taken, split, _⟩ := takes before after result run
  rw [split, List.length_append]
  exact Nat.le_add_left _ _

theorem take_if_length (kind : TokenKind) (node : NodeKind) (going : kind ≠ .endOfFile)
    (before after : TokenStream) (tree : Tree)
    (run : (takeIf kind node).run before = .ok (some tree, after)) :
    after.rest.length < before.rest.length := by
  rw [take_if_run] at run
  split at run
  · rename_i isKind
    cases run
    rw [takes_next before kind isKind going, List.singleton_append, List.length_cons]
    exact Nat.lt_succ_self _
  · cases run

theorem listed_mirrors (item again : Parser (List Tree)) (good : List Tree → List Tree → Prop)
    (fits : List Tree → List Lexeme → Prop)
    (items : Mirrors (SameLeft source edited) (SameLeft source edited) good item again)
    (takes : Takes item fits) (count more : Nat) (enough : count ≤ more) :
    Mirrors (Bounded source edited count) (SameLeft source edited)
      (RetoldList source edited good) (parenthesized.listed item count)
      (parenthesized.listed again more) := by
  induction count generalizing more with
  | zero => exact fun _ _ bounded => absurd bounded.few (Nat.not_lt_zero _)
  | succ count induction =>
      intro before start bounded
      obtain ⟨less, rfl⟩ : ∃ less, more = less + 1 := ⟨more - 1, by omega⟩
      have few := bounded.few
      have closes := bounded.left.leaf_iff .rightParen (by decide)
      rw [parenthesized.listed, parenthesized.listed, StateT.run_bind, peek_run, ok_bind,
        StateT.run_bind, peek_run, ok_bind]
      simp only [closes]
      split
      · exact echoes_pure _ _ ⟨.none, bounded.left⟩
      · refine mirrors_step _ _ _ _ before start items bounded.left
          fun parts middle copies stop ran same left => ?_
        have fewer := takes_length_le item fits takes before middle parts ran
        refine mirrors_step _ _ _ _ middle stop (take_if_mirrors .comma .punctuation (by decide))
          left fun comma line mark later ranComma sameComma leftLine => ?_
        cases sameComma with
        | none => exact echoes_pure _ _ ⟨.last _ _ same, leftLine⟩
        | some isComma =>
            have shorter := take_if_length .comma .punctuation (by decide) middle line _ ranComma
            exact mirrors_last _ _ _ _ (induction less (by omega))
              (fun rest others => .more _ _ _ _ rest others same isComma) line later
              ⟨leftLine, by omega⟩

def RetoldParens (source edited : List Char) (kind : NodeKind)
    (good : List Tree → List Tree → Prop) (tree copy : Tree) : Prop :=
  ∃ opening parts closing opened copies closed,
    tree = .branch kind (opening :: parts ++ [closing]) ∧
    copy = .branch kind (opened :: copies ++ [closed]) ∧
    opening.SameWord source edited opened ∧ closing.SameWord source edited closed ∧
    RetoldList source edited good parts copies

theorem parenthesized_mirrors (kind : NodeKind) (item again : Parser (List Tree))
    (good : List Tree → List Tree → Prop) (fits : List Tree → List Lexeme → Prop)
    (items : Mirrors (SameLeft source edited) (SameLeft source edited) good item again)
    (takes : Takes item fits) :
    Mirrors (SameLeft source edited) (SameLeft source edited)
      (RetoldParens source edited kind good) (parenthesized kind item)
      (parenthesized kind again) := by
  refine mirrors_bind _ _ _ _ (expect_mirrors .leftParen .punctuation (by decide))
    fun opening opened opens => ?_
  refine mirrors_remaining _ _ fun count more enough => ?_
  refine mirrors_bind _ _ _ _ (listed_mirrors item again good fits items takes _ _
    (Nat.succ_le_succ enough)) fun parts copies listed => ?_
  exact mirrors_last _ _ _ _ (expect_mirrors .rightParen .punctuation (by decide))
    fun closing closed closes =>
      ⟨opening, parts, closing, opened, copies, closed, rfl, rfl, opens, closes, listed⟩

end Loops

end Parser

end ScriptWasm
