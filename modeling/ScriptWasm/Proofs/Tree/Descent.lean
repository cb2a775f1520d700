import ScriptWasm.Proofs.Tree.Acceptance
import ScriptWasm.Proofs.Tree.Layers
import ScriptWasm.Proofs.Tree.Leaves

/-!
Every tree of the grammar is read from its lexemes, where no variable is spelled like an operator.
What follows a tree must not go on with it. A layer that joins operands or takes calls and members
reads its first operand and then repeats a step, and it stops where the tree does.
-/

namespace ScriptWasm

set_option autoImplicit false

def freeName (name : Lexeme) : Prop :=
  name.text ∉ operatorWords

/-- The number of the layer at which a word goes on with the tree before it, or zero. -/
def wordBinding (word : String) : Nat :=
  if word = "or" then 1
  else if word = "and" then 2
  else if word ∈ ["not", "is", "in"] then 4
  else 0

def Lexeme.binding (lexeme : Lexeme) : Nat :=
  if lexeme.kind = .name then wordBinding lexeme.text else lexeme.kind.binding

def Layer.Ends (layer : Layer) (rest : List Lexeme) : Prop :=
  ∀ next more, rest = next :: more → next.binding < layer.number

theorem Lexeme.IsWord.excludes {word : String} {lexeme : Lexeme} (isWord : lexeme.IsWord word)
    (other : String) (different : word ≠ other) : ¬lexeme.IsWord other :=
  fun isOther => different (isWord.2.symm.trans isOther.2)

theorem Lexeme.IsWord.binding {word : String} {lexeme : Lexeme} (isWord : lexeme.IsWord word) :
    lexeme.binding = wordBinding word := by
  rw [Lexeme.binding, if_pos isWord.1, isWord.2]

theorem Lexeme.binding_of_kind (lexeme : Lexeme) (noName : lexeme.kind ≠ .name) :
    lexeme.binding = lexeme.kind.binding := by
  rw [Lexeme.binding, if_neg noName]

namespace Layer

theorem ends_nil (layer : Layer) : layer.Ends [] := by
  intro next more same
  cases same

theorem ends_cons_iff (layer : Layer) (next : Lexeme) (more : List Lexeme) :
    layer.Ends (next :: more) ↔ next.binding < layer.number := by
  constructor
  · intro ends
    exact ends next more rfl
  · rintro loose _ _ same
    cases same
    exact loose

theorem ends_of_kind (layer : Layer) (next : Lexeme) (more : List Lexeme) (kind : TokenKind)
    (isKind : next.kind = kind) (noName : kind ≠ .name) (loose : kind.binding < layer.number) :
    layer.Ends (next :: more) := by
  rwa [ends_cons_iff, next.binding_of_kind (by rwa [isKind]), isKind]

/-- What ends a layer ends the tighter ones. -/
theorem ends_at_tighter (layer tighter : Layer) (rest : List Lexeme)
    (below : layer.number ≤ tighter.number) (ends : layer.Ends rest) : tighter.Ends rest :=
  fun next more same => Nat.lt_of_lt_of_le (ends next more same) below

theorem binding_cases (lexeme : Lexeme) :
    lexeme.binding ≠ 3 ∧ lexeme.binding ≠ 7 ∧ lexeme.binding < 10 := by
  unfold Lexeme.binding
  split
  · unfold wordBinding
    split
    · decide
    split
    · decide
    split <;> decide
  · cases lexeme.kind <;> decide

theorem ends_primary (rest : List Lexeme) : primary.Ends rest :=
  fun next _ _ => (binding_cases next).2.2

theorem ends_signed (rest : List Lexeme) (ends : powered.Ends rest) : signed.Ends rest := by
  intro next more same
  have loose : next.binding < 8 := ends next more same
  have other := (binding_cases next).2.1
  change next.binding < 7
  omega

theorem ends_next (layer : Layer) (rest : List Lexeme) (last : Span) (ends : layer.Ends rest) :
    (TokenStream.mk rest last).next.binding < layer.number := by
  cases rest with
  | nil => exact layer.number_positive
  | cons next more => exact ends next more rfl

/-- Where a layer ends no lexeme follows whose kind goes on with it. -/
theorem ends_without (layer : Layer) (rest : List Lexeme) (last : Span) (ends : layer.Ends rest)
    (kinds : List TokenKind)
    (tight : ∀ kind ∈ kinds, kind ≠ .name ∧ layer.number ≤ kind.binding) :
    (TokenStream.mk rest last).next.kind ∉ kinds := by
  intro member
  have loose := layer.ends_next rest last ends
  obtain ⟨noName, bound⟩ := tight _ member
  rw [Lexeme.binding_of_kind _ noName] at loose
  omega

theorem ends_without_word (layer : Layer) (rest : List Lexeme) (last : Span)
    (ends : layer.Ends rest) (word : String) (tight : layer.number ≤ wordBinding word) :
    ¬(TokenStream.mk rest last).next.IsWord word := by
  intro isWord
  have loose := layer.ends_next rest last ends
  rw [isWord.binding] at loose
  omega

end Layer

namespace Parser

section Operators

/-- A layer has no operator where it ends. -/
theorem layer_operator_stops (layer : Layer) (isChain : layer.IsChain) (rest : List Lexeme)
    (last : Span) (ends : layer.Ends rest) :
    layer.operator.run ⟨rest, last⟩ = .ok (none, ⟨rest, last⟩) := by
  have absent := layer.ends_without rest last ends
  have wordless := layer.ends_without_word rest last ends
  simp only [Layer.IsChain, List.mem_cons, List.not_mem_nil, or_false] at isChain
  rcases isChain with rfl | rfl | rfl | rfl | rfl
  · change (operatorWord "or").run _ = _
    rw [operator_word_run, if_neg]
    exact wordless "or" (by decide)
  · change (operatorWord "and").run _ = _
    rw [operator_word_run, if_neg]
    exact wordless "and" (by decide)
  · change comparisonOperator.run _ = _
    rw [comparison_operator_run, if_neg (absent _ (by decide)),
      if_neg (wordless "in" (by decide)), if_neg (wordless "is" (by decide)),
      if_neg (wordless "not" (by decide))]
  · change (operatorAmong _).run _ = _
    rw [operator_among_run, if_neg]
    exact absent _ (by decide)
  · change (operatorAmong _).run _ = _
    rw [operator_among_run, if_neg]
    exact absent _ (by decide)

/-- A layer takes its operator, where what follows is not the second word of one. -/
theorem layer_operator_reads (layer : Layer) (sign : Tree) (signs rest : List Lexeme) (last : Span)
    (joins : layer.Joins sign signs)
    (apart : layer = .comparison → ∀ next more, rest = next :: more → ¬next.IsWord "not") :
    ∃ place, layer.operator.run ⟨signs ++ rest, last⟩ = .ok (some sign, ⟨rest, place⟩) := by
  cases joins with
  | or word isOr =>
      refine ⟨word.span, ?_⟩
      change (operatorWord "or").run _ = _
      rw [operator_word_run, if_pos (by exact isOr)]
      rfl
  | and word isAnd =>
      refine ⟨word.span, ?_⟩
      change (operatorWord "and").run _ = _
      rw [operator_word_run, if_pos (by exact isAnd)]
      rfl
  | compare sign compares =>
      refine ⟨sign.span, ?_⟩
      change comparisonOperator.run _ = _
      rw [comparison_operator_run, if_pos (by exact compares)]
      rfl
  | word word known =>
      refine ⟨word.span, ?_⟩
      have isName : word.kind = .name := by rcases known with known | known <;> exact known.1
      change comparisonOperator.run ⟨word :: rest, last⟩ = _
      rw [comparison_operator_run, TokenStream.next_cons, TokenStream.past_cons,
        if_neg (by rw [isName]; decide)]
      rcases known with isIs | isIn
      · have alone : ¬(TokenStream.mk rest word.span).next.IsWord "not" := by
          cases rest with
          | nil => exact fun impossible => by cases impossible.1
          | cons next more => exact apart rfl next more rfl
        rw [if_neg (isIs.excludes "in" (by decide)), if_pos isIs, if_neg alone]
      · rw [if_pos isIn]
  | words first second two =>
      refine ⟨second.span, ?_⟩
      have isName : first.kind = .name := by rcases two with two | two <;> exact two.1.1
      change comparisonOperator.run ⟨first :: second :: rest, last⟩ = _
      rw [comparison_operator_run, TokenStream.next_cons, TokenStream.past_cons,
        TokenStream.next_cons, TokenStream.past_cons, if_neg (by rw [isName]; decide)]
      rcases two with ⟨isIs, isNot⟩ | ⟨isNot, isIn⟩
      · rw [if_neg (isIs.excludes "in" (by decide)), if_pos isIs, if_pos isNot]
      · rw [if_neg (isNot.excludes "in" (by decide)), if_neg (isNot.excludes "is" (by decide)),
          if_pos isNot, if_pos isIn]
  | add sign adds =>
      refine ⟨sign.span, ?_⟩
      change (operatorAmong _).run _ = _
      rw [operator_among_run, if_pos (by exact adds)]
      rfl
  | multiply sign multiplies =>
      refine ⟨sign.span, ?_⟩
      change (operatorAmong _).run _ = _
      rw [operator_among_run, if_pos (by exact multiplies)]
      rfl

end Operators

def suffixStep (parse : Level → Parser Tree) (value : Tree) : Parser (Option Tree) := do
  match (← peek).kind with
  | .leftParen => return some (.branch .callExpression [value, ← arguments parse])
  | .dot => do
      let dot ← take .punctuation
      let member ← expectName
      return some (.branch .memberExpression [value, dot, member])
  | _ => return none

end Parser

namespace Layer

/-- A layer whose trees grow to the right, one step after the other. -/
def Loops (layer : Layer) : Prop :=
  layer.IsChain ∨ layer = postfixed

def step (parse : Parser.Level → Parser Tree) (layer : Layer) : Tree → Parser (Option Tree) :=
  match layer with
  | postfixed => Parser.suffixStep parse
  | _ => Parser.chainStep layer.operator (layer.tighter.parser parse)

def Reads (parse : Parser.Level → Parser Tree) (layer : Layer) (tree : Tree)
    (lexemes : List Lexeme) : Prop :=
  ∀ rest last, layer.Ends rest →
    ∃ place, (layer.parser parse).run ⟨lexemes ++ rest, last⟩ = .ok (tree, ⟨rest, place⟩)

/-- A growing layer reads a tree from its lexemes, and then repeats its step often enough for
everything that follows. -/
def GoesOn (parse : Parser.Level → Parser Tree) (layer : Layer) (tree : Tree)
    (lexemes : List Lexeme) : Prop :=
  ∀ rest last, layer.tighter.Ends rest →
    ∃ place count, (layer.parser parse).run ⟨lexemes ++ rest, last⟩ =
        (Parser.extendUpTo (layer.step parse) count tree).run ⟨rest, place⟩ ∧
      rest.length < count

section Steps

variable (parse : Parser.Level → Parser Tree) (layer : Layer)

theorem loops_cases (loops : layer.Loops) : layer = disjunction ∨ layer = conjunction ∨
    layer = comparison ∨ layer = sum ∨ layer = product ∨ layer = postfixed := by
  simpa [Loops, IsChain, or_assoc] using loops

theorem loop_run (loops : layer.Loops) (stream : TokenStream) :
    (layer.parser parse).run stream =
      (layer.tighter.parser parse).run stream >>= fun (first, after) =>
        (Parser.extendUpTo (layer.step parse) (after.rest.length + 1) first).run after := by
  rcases layer.loops_cases loops with rfl | rfl | rfl | rfl | rfl | rfl <;> rfl

theorem step_of_chain (isChain : layer.IsChain) :
    layer.step parse = Parser.chainStep layer.operator (layer.tighter.parser parse) := by
  cases layer with
  | postfixed => simp [IsChain] at isChain
  | _ => rfl

theorem step_stops (loops : layer.Loops) (tree : Tree) (rest : List Lexeme) (last : Span)
    (ends : layer.Ends rest) :
    (layer.step parse tree).run ⟨rest, last⟩ = .ok (none, ⟨rest, last⟩) := by
  rcases loops with isChain | rfl
  · rw [layer.step_of_chain parse isChain, Parser.chainStep, StateT.run_bind,
      Parser.layer_operator_stops layer isChain rest last ends]
    rfl
  · have absent := ends_without postfixed rest last ends [.leftParen, .dot] (by decide)
    change (Parser.suffixStep parse tree).run _ = _
    rw [Parser.suffixStep, StateT.run_bind, Parser.peek_run, ok_bind]
    split
    · rename_i opens
      exact absurd (by rw [opens]; simp) absent
    · rename_i isDot
      exact absurd (by rw [isDot]; simp) absent
    · rfl

variable {parse} {layer} {tree : Tree} {lexemes : List Lexeme}

theorem goes_on_of_reads (loops : layer.Loops) (reads : layer.tighter.Reads parse tree lexemes) :
    layer.GoesOn parse tree lexemes := by
  intro rest last ends
  obtain ⟨place, run⟩ := reads rest last ends
  refine ⟨place, rest.length + 1, ?_, Nat.lt_succ_self _⟩
  rw [layer.loop_run parse loops, run]
  rfl

theorem reads_of_goes_on (loops : layer.Loops) (goesOn : layer.GoesOn parse tree lexemes) :
    layer.Reads parse tree lexemes := by
  intro rest last ends
  obtain ⟨place, count, run, enough⟩ :=
    goesOn rest last (layer.ends_at_tighter _ rest layer.number_le_tighter ends)
  obtain ⟨more, rfl⟩ : ∃ more, count = more + 1 := ⟨count - 1, by omega⟩
  refine ⟨place, ?_⟩
  rw [run, Parser.extendUpTo, StateT.run_bind, layer.step_stops parse loops tree rest place ends]
  rfl

/-- A step that answers a larger tree is followed by the further steps. -/
theorem goes_on_of_step (larger : Tree) (added : List Lexeme)
    (filled : added ≠ []) (goesOn : layer.GoesOn parse tree lexemes)
    (step : ∀ rest last, layer.tighter.Ends rest → layer.tighter.Ends (added ++ rest) ∧
      ∃ place, (layer.step parse tree).run ⟨added ++ rest, last⟩ =
        .ok (some larger, ⟨rest, place⟩)) : layer.GoesOn parse larger (lexemes ++ added) := by
  intro rest last ends
  obtain ⟨endsAdded, _⟩ := step rest last ends
  obtain ⟨place, count, run, enough⟩ := goesOn (added ++ rest) last endsAdded
  obtain ⟨more, rfl⟩ : ∃ more, count = more + 1 := ⟨count - 1, by omega⟩
  obtain ⟨_, final, taken⟩ := step rest place ends
  refine ⟨final, more, ?_, ?_⟩
  · rw [List.append_assoc, run, Parser.extendUpTo, StateT.run_bind, taken]
    rfl
  · have := List.length_pos_iff.mpr filled
    rw [List.length_append] at enough
    omega

end Steps

/-- A layer reads a tree, and goes on after it if the layer grows. -/
structure Reached (parse : Parser.Level → Parser Tree) (layer : Layer) (tree : Tree)
    (lexemes : List Lexeme) : Prop where
  grows : layer.Loops → layer.GoesOn parse tree lexemes
  alone : ¬layer.Loops → layer.Reads parse tree lexemes

theorem Reached.reads {parse : Parser.Level → Parser Tree} {layer : Layer} {tree : Tree}
    {lexemes : List Lexeme} (reached : layer.Reached parse tree lexemes) :
    layer.Reads parse tree lexemes := by
  by_cases loops : layer.Loops
  · exact reads_of_goes_on loops (reached.grows loops)
  · exact reached.alone loops

end Layer

/-- The levels that expressions go back to read all trees with fewer lexemes than the bound. -/
def Parser.GoesBack (parse : Parser.Level → Parser Tree) (bound : Nat) : Prop :=
  ∀ (level : Parser.Level) (tree : Tree) (lexemes : List Lexeme),
    Grammar freeName level.layer tree lexemes → lexemes.length < bound →
      ∀ rest last, level.layer.Ends rest →
        ∃ place, (parse level).run ⟨lexemes ++ rest, last⟩ = .ok (tree, ⟨rest, place⟩)

namespace Parser

section Levels

variable {parse : Level → Parser Tree} {bound : Nat}

theorem not_closing (layer : Layer) (first : Lexeme) (starts : layer.Starts freeName first) :
    first.kind ≠ .rightParen := by
  intro closes
  rcases starts with ⟨isNot, _⟩ | ⟨isSign, _⟩ | ⟨isName, _⟩ | isOther
  · rw [isNot.1] at closes
    cases closes
  · rw [closes] at isSign
    exact absurd isSign (by decide)
  · rw [isName] at closes
    cases closes
  · rw [closes] at isOther
    exact absurd isOther (by decide)

/-- A list is read up to the parenthesis that closes it, if its items are read. -/
theorem listed_reads (item : Parser (List Tree)) (entries : List (List Tree × List Lexeme))
    (parts : List Tree) (inside : List Lexeme) (listed : CommaList entries parts inside)
    (starts : ∀ entry ∈ entries, ∃ first more, entry.2 = first :: more ∧ first.kind ≠ .rightParen)
    (reads : ∀ entry ∈ entries, ∀ next rest last,
      next.kind = .comma ∨ next.kind = .rightParen →
        ∃ place, item.run ⟨entry.2 ++ next :: rest, last⟩ = .ok (entry.1, ⟨next :: rest, place⟩))
    (count : Nat) (enough : inside.length < count) (closing : Lexeme)
    (closes : closing.kind = .rightParen) (rest : List Lexeme) (last : Span) :
    ∃ place, (parenthesized.listed item count).run ⟨inside ++ closing :: rest, last⟩ =
      .ok (parts, ⟨closing :: rest, place⟩) := by
  obtain ⟨fewer, rfl⟩ : ∃ fewer, count = fewer + 1 := ⟨count - 1, by omega⟩
  have opened : ∀ entry ∈ entries, ∀ tail place,
      (TokenStream.mk (entry.2 ++ tail) place).next.kind ≠ .rightParen := by
    intro entry member tail place
    obtain ⟨first, more, isFirst, notClosing⟩ := starts entry member
    rw [isFirst]
    exact notClosing
  -- Every item takes at least one token, so a count above their number lasts to the parenthesis.
  induction listed generalizing fewer last with
  | none =>
      refine ⟨last, ?_⟩
      rw [List.nil_append, parenthesized.listed, StateT.run_bind, peek_run, ok_bind,
        TokenStream.next_cons, if_pos closes]
      rfl
  | last parts lexemes =>
      obtain ⟨place, run⟩ := reads (parts, lexemes) (by simp) closing rest last (Or.inr closes)
      refine ⟨place, ?_⟩
      rw [parenthesized.listed, StateT.run_bind, peek_run, ok_bind,
        if_neg (opened (parts, lexemes) (by simp) _ _), StateT.run_bind, run, ok_bind,
        StateT.run_bind, take_if_run, if_neg (by rw [TokenStream.next_cons, closes]; decide)]
      rfl
  | more parts lexemes comma items others tokens isComma _ induction =>
      obtain ⟨place, run⟩ := reads (parts, lexemes) (by simp) comma (tokens ++ closing :: rest) last
        (Or.inl isComma)
      rw [List.length_append, List.length_cons] at enough
      obtain ⟨fewer, rfl⟩ : ∃ less, fewer = less + 1 := ⟨fewer - 1, by omega⟩
      obtain ⟨final, later⟩ := induction (fun entry member => starts entry (by simp [member]))
        (fun entry member => reads entry (by simp [member])) comma.span fewer (by omega)
        fun entry member => opened entry (by simp [member])
      refine ⟨final, ?_⟩
      rw [List.append_assoc, List.cons_append, parenthesized.listed, StateT.run_bind, peek_run,
        ok_bind, if_neg (opened (parts, lexemes) (by simp) _ _), StateT.run_bind, run, ok_bind,
        StateT.run_bind, take_if_run, if_pos (by rw [TokenStream.next_cons, isComma]), ok_bind]
      simp only [StateT.run_bind, TokenStream.past_cons, TokenStream.next_cons, later, ok_bind]
      rfl

theorem comma_list_length (entries : List (List Tree × List Lexeme)) (parts : List Tree)
    (inside : List Lexeme) (listed : CommaList entries parts inside) :
    ∀ entry ∈ entries, entry.2.length ≤ inside.length := by
  induction listed with
  | none => exact List.forall_mem_nil _
  | last item lexemes =>
      intro entry member
      rw [List.mem_singleton.mp member]
  | more item lexemes comma items parts others _ _ induction =>
      intro entry member
      rw [List.length_append, List.length_cons]
      rcases List.mem_cons.mp member with rfl | later
      · exact Nat.le_add_right _ _
      · have := induction entry later
        omega

theorem arguments_reads (goesBack : GoesBack parse bound) (items : List (Tree × List Lexeme))
    (parts : List Tree) (inside : List Lexeme)
    (listed : CommaList (items.map fun item => ([item.1], item.2)) parts inside)
    (whole : ∀ item ∈ items, Grammar freeName .disjunction item.1 item.2)
    (short : inside.length < bound) (opening closing : Lexeme) (opens : opening.kind = .leftParen)
    (closes : closing.kind = .rightParen) (rest : List Lexeme) (last : Span) :
    (arguments parse).run ⟨opening :: inside ++ [closing] ++ rest, last⟩ =
      .ok (.branch .argList
        (.leaf .punctuation opening.span :: parts ++ [.leaf .punctuation closing.span]),
        ⟨rest, closing.span⟩) := by
  obtain ⟨place, run⟩ := listed_reads (do return [← parse .expression]) _ parts inside listed
    (by
      intro entry member
      obtain ⟨item, there, rfl⟩ := List.mem_map.mp member
      obtain ⟨first, more, isFirst, starts⟩ := grammar_starts freeName _ _ _ (whole item there)
      exact ⟨first, more, isFirst, not_closing _ first starts⟩)
    (by
      intro entry member next more place follows
      have bounded := comma_list_length _ parts inside listed entry member
      obtain ⟨item, there, rfl⟩ := List.mem_map.mp member
      have ends : Layer.Ends .disjunction (next :: more) := by
        rcases follows with isComma | isClosing
        · exact Layer.ends_of_kind _ next more .comma isComma (by decide) (by decide)
        · exact Layer.ends_of_kind _ next more .rightParen isClosing (by decide) (by decide)
      obtain ⟨final, run⟩ := goesBack .expression item.1 item.2 (whole item there)
        (Nat.lt_of_le_of_lt bounded short) (next :: more) place ends
      refine ⟨final, ?_⟩
      rw [StateT.run_bind, run]
      rfl)
    ((inside ++ closing :: rest).length + 1)
    (by rw [List.length_append]; omega) closing closes rest opening.span
  rw [List.append_assoc, List.cons_append, List.singleton_append, arguments, parenthesized,
    StateT.run_bind, expect_run _ _ _ _ _ opens, ok_bind]
  simp only [StateT.run_bind, remaining_run, ok_bind, run]
  rw [expect_run _ _ _ _ _ closes]
  rfl

theorem primary_leaf_run (lexeme : Lexeme) (rest : List Lexeme) (last : Span) (kind : NodeKind)
    (isLeaf : lexeme.kind.operandKind? = some kind) :
    (primary parse).run ⟨lexeme :: rest, last⟩ =
      .ok (.leaf kind lexeme.span, ⟨rest, lexeme.span⟩) := by
  rw [primary, StateT.run_bind, peek_run, ok_bind, TokenStream.next_cons]
  cases isKind : lexeme.kind <;>
    simp only [isKind, TokenKind.operandKind?, Option.some.injEq, reduceCtorEq] at isLeaf
  all_goals
    subst isLeaf
    simp only [take_run]
    rfl

end Levels

end Parser

namespace Layer

/-- The first lexeme of an operator ends what stands before it. -/
theorem joins_starts (layer : Layer) (sign : Tree) (signs : List Lexeme)
    (joins : layer.Joins sign signs) :
    layer.IsChain ∧ ∃ first more, signs = first :: more ∧ first.binding < layer.tighter.number := by
  have bound : ∀ (kinds : List TokenKind) (lexeme : Lexeme) (limit : Nat),
      (∀ kind ∈ kinds, kind ≠ .name ∧ kind.binding < limit) → lexeme.kind ∈ kinds →
        lexeme.binding < limit := by
    intro kinds lexeme limit all member
    rw [lexeme.binding_of_kind (all _ member).1]
    exact (all _ member).2
  cases joins with
  | or word isOr => exact ⟨by decide, word, [], rfl, by rw [isOr.binding]; decide⟩
  | and word isAnd => exact ⟨by decide, word, [], rfl, by rw [isAnd.binding]; decide⟩
  | compare sign compares =>
      exact ⟨by decide, sign, [], rfl, bound _ sign _ (by decide) compares⟩
  | word word known =>
      refine ⟨by decide, word, [], rfl, ?_⟩
      rcases known with isWord | isWord <;> rw [isWord.binding] <;> decide
  | words first second two =>
      refine ⟨by decide, first, [second], rfl, ?_⟩
      rcases two with ⟨isWord, _⟩ | ⟨isWord, _⟩ <;> rw [isWord.binding] <;> decide
  | add sign adds => exact ⟨by decide, sign, [], rfl, bound _ sign _ (by decide) adds⟩
  | multiply sign multiplies =>
      exact ⟨by decide, sign, [], rfl, bound _ sign _ (by decide) multiplies⟩

/-- A tree of a tight layer starts with no word that looser layers read. -/
theorem starts_without_not (layer : Layer) (first : Lexeme) (tight : 3 < layer.number)
    (starts : layer.Starts freeName first) : ¬first.IsWord "not" := by
  rintro ⟨isName, isNot⟩
  rcases starts with ⟨_, low⟩ | ⟨isSign, _⟩ | ⟨_, free⟩ | other
  · omega
  · rw [isName] at isSign
    exact absurd isSign (by decide)
  · exact free (by rw [isNot]; decide)
  · rw [isName] at other
    exact absurd other (by decide)

theorem starts_without_sign (layer : Layer) (first : Lexeme) (tight : 7 < layer.number)
    (starts : layer.Starts freeName first) : first.kind ∉ [TokenKind.plus, .minus] := by
  intro isSign
  rcases starts with ⟨isNot, _⟩ | ⟨_, low⟩ | ⟨isName, _⟩ | other
  · rw [isNot.1] at isSign
    exact absurd isSign (by decide)
  · omega
  · rw [isName] at isSign
    exact absurd isSign (by decide)
  · simp only [List.mem_cons, List.not_mem_nil, or_false] at isSign
    rcases isSign with isPlus | isMinus
    · rw [isPlus] at other
      exact absurd other (by decide)
    · rw [isMinus] at other
      exact absurd other (by decide)

section Constructors

variable {parse : Parser.Level → Parser Tree} {bound : Nat} {tree : Tree} {lexemes : List Lexeme}

theorem reached_of_tighter (layer : Layer)
    (whole : Grammar freeName layer.tighter tree lexemes)
    (reached : layer.tighter.Reached parse tree lexemes) : layer.Reached parse tree lexemes := by
  refine ⟨fun loops => goes_on_of_reads loops reached.reads, fun alone => ?_⟩
  obtain ⟨first, more, rfl, starts⟩ := grammar_starts freeName _ tree lexemes whole
  intro rest last ends
  cases layer with
  | negation =>
      obtain ⟨place, run⟩ := reached.reads rest last
        (ends_at_tighter negation comparison rest (by decide) ends)
      refine ⟨place, ?_⟩
      change (Parser.negation parse).run _ = _
      rw [Parser.negation, StateT.run_bind, Parser.operator_word_run,
        if_neg (by exact starts_without_not comparison first (by decide) starts), ok_bind]
      exact run
  | signed =>
      obtain ⟨place, run⟩ := reached.reads rest last
        (ends_at_tighter signed powered rest (by decide) ends)
      refine ⟨place, ?_⟩
      change (Parser.signed parse).run _ = _
      rw [Parser.signed, StateT.run_bind, Parser.operator_among_run,
        if_neg (by exact starts_without_sign powered first (by decide) starts), ok_bind]
      exact run
  | powered =>
      obtain ⟨place, run⟩ := reached.reads rest last
        (ends_at_tighter powered postfixed rest (by decide) ends)
      have unraised := ends_without powered rest place ends [.power] (by decide)
      refine ⟨place, ?_⟩
      change (Parser.powered parse).run _ = _
      rw [Parser.powered, StateT.run_bind]
      change (Parser.postfixed parse).run _ = _ at run
      rw [run, ok_bind, StateT.run_bind, Parser.take_if_run,
        if_neg (by simpa using unraised), ok_bind]
      rfl
  | primary => exact reached.reads rest last ends
  | _ => exact absurd (by simp [Loops, IsChain]) alone

theorem reached_of_joined (layer : Layer) (left sign right : Tree)
    (before signs after : List Lexeme) (joins : layer.Joins sign signs)
    (second : Grammar freeName layer.tighter right after)
    (reached : layer.Reached parse left before)
    (reachedSecond : layer.tighter.Reached parse right after) :
    layer.Reached parse (Parser.binary left sign right) (before ++ signs ++ after) := by
  obtain ⟨isChain, first, more, isFirst, loose⟩ := layer.joins_starts sign signs joins
  obtain ⟨lead, others, isLead, starts⟩ := grammar_starts freeName _ right after second
  refine ⟨fun loops => ?_, fun alone => absurd (Or.inl isChain) alone⟩
  rw [List.append_assoc]
  refine goes_on_of_step _ (signs ++ after) (by simp [isFirst]) (reached.grows loops) ?_
  intro rest last ends
  refine ⟨by rwa [isFirst, List.append_assoc, List.cons_append, ends_cons_iff], ?_⟩
  obtain ⟨middle, taken⟩ := Parser.layer_operator_reads layer sign signs (after ++ rest) last joins
    (by
      rintro rfl next tail same
      rw [isLead] at same
      cases same
      exact starts_without_not sum lead (by decide) starts)
  obtain ⟨place, run⟩ := reachedSecond.reads rest middle ends
  refine ⟨place, ?_⟩
  rw [layer.step_of_chain parse isChain, Parser.chainStep, List.append_assoc, StateT.run_bind,
    taken, ok_bind, StateT.run_bind, run]
  rfl

theorem reached_of_negated (goesBack : Parser.GoesBack parse bound) (word : Lexeme)
    (operand : Tree) (isNot : word.IsWord "not")
    (inner : Grammar freeName .negation operand lexemes) (short : lexemes.length < bound) :
    negation.Reached parse (.branch .unaryExpression [.leaf .operator word.span, operand])
      (word :: lexemes) := by
  refine ⟨fun loops => absurd loops (by simp [Loops, IsChain]), fun _ rest last ends => ?_⟩
  obtain ⟨place, run⟩ := goesBack .negation operand lexemes inner short rest word.span ends
  refine ⟨place, ?_⟩
  change (Parser.negation parse).run ⟨word :: (lexemes ++ rest), last⟩ = _
  rw [Parser.negation, StateT.run_bind, Parser.operator_word_run, if_pos (by exact isNot), ok_bind]
  change StateT.run (do return Tree.branch .unaryExpression [_, ← parse .negation]) _ = _
  rw [StateT.run_bind, TokenStream.past_cons, run]
  rfl

theorem reached_of_signed (goesBack : Parser.GoesBack parse bound) (sign : Lexeme)
    (operand : Tree) (isSign : sign.kind ∈ [.plus, .minus])
    (inner : Grammar freeName .signed operand lexemes) (short : lexemes.length < bound) :
    signed.Reached parse (.branch .unaryExpression [.leaf .operator sign.span, operand])
      (sign :: lexemes) := by
  refine ⟨fun loops => absurd loops (by simp [Loops, IsChain]), fun _ rest last ends => ?_⟩
  obtain ⟨place, run⟩ := goesBack .signed operand lexemes inner short rest sign.span ends
  refine ⟨place, ?_⟩
  change (Parser.signed parse).run ⟨sign :: (lexemes ++ rest), last⟩ = _
  rw [Parser.signed, StateT.run_bind, Parser.operator_among_run, if_pos (by exact isSign), ok_bind]
  change StateT.run (do return Tree.branch .unaryExpression [_, ← parse .signed]) _ = _
  rw [StateT.run_bind, TokenStream.past_cons, run]
  rfl

theorem reached_of_raised (goesBack : Parser.GoesBack parse bound) (base exponent : Tree)
    (before after : List Lexeme) (sign : Lexeme) (isPower : sign.kind = .power)
    (second : Grammar freeName .signed exponent after) (short : after.length < bound)
    (reached : postfixed.Reached parse base before) :
    powered.Reached parse (Parser.binary base (.leaf .operator sign.span) exponent)
      (before ++ sign :: after) := by
  refine ⟨fun loops => absurd loops (by simp [Loops, IsChain]), fun _ rest last ends => ?_⟩
  obtain ⟨middle, run⟩ := reached.reads (sign :: (after ++ rest)) last
    (ends_of_kind _ sign _ .power isPower (by decide) (by decide))
  obtain ⟨place, runSecond⟩ := goesBack .signed exponent after second short rest sign.span
    (ends_signed rest ends)
  refine ⟨place, ?_⟩
  change (Parser.postfixed parse).run _ = _ at run
  change (Parser.powered parse).run _ = _
  rw [List.append_assoc, List.cons_append, Parser.powered, StateT.run_bind, run, ok_bind,
    StateT.run_bind, Parser.take_if_run, if_pos (by exact isPower), ok_bind]
  change StateT.run (do return Parser.binary base _ (← parse .signed)) _ = _
  rw [StateT.run_bind, TokenStream.past_cons, runSecond]
  rfl

theorem reached_of_called (goesBack : Parser.GoesBack parse bound) (callee : Tree)
    (before : List Lexeme) (items : List (Tree × List Lexeme)) (parts : List Tree)
    (inside : List Lexeme) (opening closing : Lexeme) (opens : opening.kind = .leftParen)
    (closes : closing.kind = .rightParen)
    (listed : CommaList (items.map fun item => ([item.1], item.2)) parts inside)
    (arguments : ∀ item ∈ items, Grammar freeName .disjunction item.1 item.2)
    (short : inside.length < bound) (reached : postfixed.Reached parse callee before) :
    postfixed.Reached parse
      (.branch .callExpression [callee, .branch .argList
        (.leaf .punctuation opening.span :: parts ++ [.leaf .punctuation closing.span])])
      (before ++ opening :: inside ++ [closing]) := by
  refine ⟨fun loops => ?_, fun alone => absurd (Or.inr rfl) alone⟩
  rw [List.append_assoc]
  refine goes_on_of_step _ (opening :: inside ++ [closing]) (by simp) (reached.grows loops) ?_
  intro rest last _
  refine ⟨ends_primary _, closing.span, ?_⟩
  have run := Parser.arguments_reads goesBack items parts inside listed arguments short opening
    closing opens closes rest last
  change (Parser.suffixStep parse callee).run _ = _
  rw [Parser.suffixStep, StateT.run_bind, Parser.peek_run, ok_bind]
  simp only [List.cons_append, TokenStream.next_cons, opens] at run ⊢
  rw [StateT.run_bind, run]
  rfl

theorem reached_of_member (value : Tree) (before : List Lexeme) (dot name : Lexeme)
    (isDot : dot.kind = .dot) (isName : name.kind = .name)
    (reached : postfixed.Reached parse value before) :
    postfixed.Reached parse
      (.branch .memberExpression
        [value, .leaf .punctuation dot.span, .leaf .variableName name.span])
      (before ++ [dot, name]) := by
  refine ⟨fun loops => ?_, fun alone => absurd (Or.inr rfl) alone⟩
  refine goes_on_of_step _ [dot, name] (by simp) (reached.grows loops) ?_
  intro rest last _
  refine ⟨ends_primary _, name.span, ?_⟩
  change (Parser.suffixStep parse value).run _ = _
  rw [Parser.suffixStep, StateT.run_bind, Parser.peek_run, ok_bind]
  simp only [List.cons_append, List.nil_append, TokenStream.next_cons, isDot]
  rw [StateT.run_bind, Parser.take_run, ok_bind, StateT.run_bind, TokenStream.past_cons,
    Parser.expect_name_run name rest dot.span isName]
  rfl

theorem reached_of_leaf (lexeme : Lexeme) (kind : NodeKind)
    (isLeaf : lexeme.kind.operandKind? = some kind) :
    primary.Reached parse (.leaf kind lexeme.span) [lexeme] :=
  ⟨fun loops => absurd loops (by simp [Loops, IsChain]), fun _ rest last _ =>
    ⟨lexeme.span, Parser.primary_leaf_run lexeme rest last kind isLeaf⟩⟩

theorem reached_of_parenthesized (goesBack : Parser.GoesBack parse bound) (inner : Tree)
    (inside : List Lexeme) (opening closing : Lexeme) (opens : opening.kind = .leftParen)
    (closes : closing.kind = .rightParen) (whole : Grammar freeName .disjunction inner inside)
    (short : inside.length < bound) :
    primary.Reached parse
      (.branch .parenthesizedExpression
        [.leaf .punctuation opening.span, inner, .leaf .punctuation closing.span])
      (opening :: inside ++ [closing]) := by
  refine ⟨fun loops => absurd loops (by simp [Loops, IsChain]), fun _ rest last _ => ?_⟩
  obtain ⟨middle, run⟩ := goesBack .expression inner inside whole short (closing :: rest)
    opening.span (ends_of_kind _ closing rest .rightParen closes (by decide) (by decide))
  refine ⟨closing.span, ?_⟩
  change (Parser.primary parse).run _ = _
  rw [List.append_assoc, List.cons_append, List.singleton_append, Parser.primary, StateT.run_bind,
    Parser.peek_run, ok_bind]
  simp only [TokenStream.next_cons, opens]
  rw [StateT.run_bind, Parser.take_run, ok_bind, StateT.run_bind, TokenStream.past_cons, run,
    ok_bind, StateT.run_bind, Parser.expect_run _ _ closing rest middle closes]
  rfl

/-- Every tree of the grammar is read at its layer, if shorter ones are read where the layers go
back to looser ones. -/
theorem grammar_reached (goesBack : Parser.GoesBack parse bound) (layer : Layer)
    (whole : Grammar freeName layer tree lexemes) (short : lexemes.length ≤ bound) :
    layer.Reached parse tree lexemes := by
  induction whole with
  | tighter layer tree lexemes inner induction =>
      exact reached_of_tighter layer inner (induction short)
  | joined layer left sign right before signs after _ joins second induction inductionSecond =>
      simp only [List.length_append] at short
      exact reached_of_joined layer left sign right before signs after joins second
        (induction (by omega)) (inductionSecond (by omega))
  | negated word operand lexemes isNot inner _ =>
      exact reached_of_negated goesBack word operand isNot inner short
  | signed sign operand lexemes isSign inner _ =>
      exact reached_of_signed goesBack sign operand isSign inner short
  | raised base exponent before sign after _ isPower second induction _ =>
      simp only [List.length_append, List.length_cons] at short
      exact reached_of_raised goesBack base exponent before after sign isPower second (by omega)
        (induction (by omega))
  | called callee before opening items parts inside closing _ opens closes listed arguments
      induction _ =>
      simp only [List.length_append, List.length_cons] at short
      exact reached_of_called goesBack callee before items parts inside opening closing opens closes
        listed arguments (by omega) (induction (by omega))
  | member value before dot name _ isDot isName induction =>
      simp only [List.length_append] at short
      exact reached_of_member value before dot name isDot isName (induction (by omega))
  | name word isName _ => exact reached_of_leaf word .variableName (by rw [isName]; rfl)
  | number digits isNumber => exact reached_of_leaf digits .number (by rw [isNumber]; rfl)
  | string quoted isString => exact reached_of_leaf quoted .string (by rw [isString]; rfl)
  | boolean word isBoolean =>
      refine reached_of_leaf word .boolean ?_
      simp only [List.mem_cons, List.not_mem_nil, or_false] at isBoolean
      rcases isBoolean with isTrue | isFalse
      · rw [isTrue]
        rfl
      · rw [isFalse]
        rfl
  | noneWord word isNone => exact reached_of_leaf word .noneWord (by rw [isNone]; rfl)
  | parenthesized opening inner inside closing opens closes innerWhole _ =>
      simp only [List.length_append, List.length_cons] at short
      exact reached_of_parenthesized goesBack inner inside opening closing opens closes innerWhole
        (by omega)

end Constructors

end Layer

namespace Parser

theorem expression_up_to_goes_back (depth : Nat) : GoesBack (expressionUpTo depth) (depth + 1) := by
  induction depth with
  | zero =>
      intro level tree lexemes whole short
      obtain ⟨first, more, rfl, _⟩ := grammar_starts freeName _ tree lexemes whole
      exact absurd short (by simp)
  | succ depth induction =>
      intro level tree lexemes whole short rest last ends
      have reached := Layer.grammar_reached induction level.layer whole (by omega)
      obtain ⟨place, run⟩ := reached.reads rest last ends
      refine ⟨place, ?_⟩
      cases level <;> exact run

/-- An expression is read from its lexemes, up to where it ends. -/
theorem expression_reads (tree : Tree) (lexemes : List Lexeme)
    (whole : Grammar freeName .disjunction tree lexemes) (rest : List Lexeme) (last : Span)
    (ends : Layer.disjunction.Ends rest) :
    ∃ place, expression.run ⟨lexemes ++ rest, last⟩ = .ok (tree, ⟨rest, place⟩) := by
  rw [expression, StateT.run_bind, remaining_run, ok_bind]
  refine expression_up_to_goes_back _ .expression tree lexemes whole ?_ rest last ends
  rw [List.length_append]
  omega

/-- The tokens that stand after expressions and go on with none. -/
def followKinds : List TokenKind :=
  [.newline, .endOfFile, .dedent, .colon, .assign, .comma, .rightParen]

/-- What is read as an expression is a tree of the grammar with the leaves that were taken. Where no
variable is spelled like an operator, every tree of the grammar is the one that is read from its
lexemes, and lexemes have at most one tree. -/
theorem expressions_follow_the_grammar :
    (∀ before after tree, expression.run before = .ok (tree, after) →
      ∃ taken, before.rest = taken ++ after.rest ∧ Grammar anyName .disjunction tree taken ∧
        Cover tree.leaves taken) ∧
    (∀ tree lexemes next rest last, Grammar freeName .disjunction tree lexemes →
      next.kind ∈ followKinds →
        ∃ place, expression.run ⟨lexemes ++ next :: rest, last⟩ =
          .ok (tree, ⟨next :: rest, place⟩)) ∧
    ∀ tree other lexemes, Grammar freeName .disjunction tree lexemes →
      Grammar freeName .disjunction other lexemes → other = tree := by
  refine ⟨?_, ?_, ?_⟩
  · intro before after tree run
    obtain ⟨taken, split, whole⟩ := expression_takes before after tree run
    have covered := (grammar_written whole).covered
    rw [Tree.leaves_of_more, Tree.leaves_of_none, List.append_nil] at covered
    exact ⟨taken, split, whole, covered⟩
  · intro tree lexemes next rest last whole follows
    have loose : ∀ kind ∈ followKinds, kind ≠ .name ∧ kind.binding < 1 := by decide
    obtain ⟨noName, bound⟩ := loose next.kind follows
    exact expression_reads tree lexemes whole (next :: rest) last
      (Layer.ends_of_kind .disjunction next rest next.kind rfl noName bound)
  · intro tree other lexemes whole otherWhole
    have ends := Layer.disjunction.ends_nil
    obtain ⟨_, run⟩ := expression_reads tree lexemes whole [] ⟨0, 0⟩ ends
    obtain ⟨_, runToo⟩ := expression_reads other lexemes otherWhole [] ⟨0, 0⟩ ends
    rw [run] at runToo
    cases runToo
    rfl

/-- The lexemes of `-a ** -2 is not b`. -/
def powerLexemes : List Lexeme :=
  [⟨.minus, ⟨0, 1⟩, "-"⟩, ⟨.name, ⟨1, 2⟩, "a"⟩, ⟨.power, ⟨3, 5⟩, "**"⟩, ⟨.minus, ⟨6, 7⟩, "-"⟩,
   ⟨.number, ⟨7, 8⟩, "2"⟩, ⟨.name, ⟨9, 11⟩, "is"⟩, ⟨.name, ⟨12, 15⟩, "not"⟩,
   ⟨.name, ⟨16, 17⟩, "b"⟩]

/-- A sign binds more loosely than the power on its right, and is allowed in its exponent. -/
def powerTree : Tree :=
  binary
    (.branch .unaryExpression [.leaf .operator ⟨0, 1⟩,
      binary (.leaf .variableName ⟨1, 2⟩) (.leaf .operator ⟨3, 5⟩)
        (.branch .unaryExpression [.leaf .operator ⟨6, 7⟩, .leaf .number ⟨7, 8⟩])])
    (.leaf .operator ⟨9, 15⟩) (.leaf .variableName ⟨16, 17⟩)

theorem power_is_grammatical : Grammar freeName .disjunction powerTree powerLexemes := by
  have variableLeaf : ∀ lexeme : Lexeme, lexeme.kind = .name → lexeme.text ∉ operatorWords →
      Grammar freeName .primary (.leaf .variableName lexeme.span) [lexeme] :=
    fun lexeme isName free => .name lexeme isName free
  have base : Grammar freeName .postfixed (.leaf .variableName ⟨1, 2⟩) [⟨.name, ⟨1, 2⟩, "a"⟩] :=
    .tighter .postfixed _ _ (variableLeaf ⟨.name, ⟨1, 2⟩, "a"⟩ rfl (by decide))
  have two : Grammar freeName .signed (.leaf .number ⟨7, 8⟩) [⟨.number, ⟨7, 8⟩, "2"⟩] :=
    .tighter _ _ _ (.tighter _ _ _ (.tighter _ _ _ (.number ⟨.number, ⟨7, 8⟩, "2"⟩ rfl)))
  have power := Grammar.raised _ _ _ ⟨.power, ⟨3, 5⟩, "**"⟩ _ base rfl
    (.signed ⟨.minus, ⟨6, 7⟩, "-"⟩ _ _ (by decide) two)
  have left := Grammar.signed ⟨.minus, ⟨0, 1⟩, "-"⟩ _ _ (by decide) (.tighter .signed _ _ power)
  have right : Grammar freeName .sum (.leaf .variableName ⟨16, 17⟩) [⟨.name, ⟨16, 17⟩, "b"⟩] :=
    .tighter _ _ _ (.tighter _ _ _ (.tighter _ _ _ (.tighter _ _ _ (.tighter _ _ _
      (variableLeaf ⟨.name, ⟨16, 17⟩, "b"⟩ rfl (by decide))))))
  have whole := Grammar.joined .comparison _ _ _ _ _ _
    (.tighter _ _ _ (.tighter _ _ _ (.tighter _ _ _ left)))
    (.words ⟨.name, ⟨9, 11⟩, "is"⟩ ⟨.name, ⟨12, 15⟩, "not"⟩ (by decide)) right
  exact .tighter _ _ _ (.tighter _ _ _ (.tighter _ _ _ whole))

theorem power_follows_the_grammar :
    (∃ place, expression.run ⟨powerLexemes ++ [⟨.newline, ⟨17, 18⟩, "\n"⟩], ⟨0, 0⟩⟩ =
      .ok (powerTree, ⟨[⟨.newline, ⟨17, 18⟩, "\n"⟩], place⟩)) ∧
    Cover powerTree.leaves powerLexemes ∧
    ∀ other, Grammar freeName .disjunction other powerLexemes → other = powerTree := by
  obtain ⟨sound, complete, unique⟩ := expressions_follow_the_grammar
  obtain ⟨place, run⟩ := complete powerTree powerLexemes ⟨.newline, ⟨17, 18⟩, "\n"⟩ [] ⟨0, 0⟩
    power_is_grammatical (by decide)
  obtain ⟨taken, split, _, covered⟩ := sound _ _ _ run
  have same := List.append_cancel_right split
  exact ⟨⟨place, run⟩, same ▸ covered, fun other => unique powerTree other _ power_is_grammatical⟩

end Parser

end ScriptWasm
