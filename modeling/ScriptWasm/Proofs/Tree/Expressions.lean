import ScriptWasm.Proofs.Tree.Operators

/-!
The expressions that were read can be written. Each level of the grammar reads expressions that bind
at least as tightly as the level does, and those that start with the name `not` are only read where
no negation can start.
-/

namespace ScriptWasm

set_option autoImplicit false

def StartsWithNot : List Lexeme → Prop
  | [] => False
  | next :: _ => next.kind = .name ∧ next.text = "not"

structure Expr.ReadAt (expr : Expr) (level : Nat) (before : List Lexeme) : Prop where
  readable : expr.Readable
  unannotated : expr.AllNotes Note.Unannotated
  tight : level ≤ expr.level
  leading : expr.leadingNot = true → 3 < level ∧ StartsWithNot before

/-- A tree of a level, which may denote no expression. -/
structure Tree.Reads (source : List Char) (level : Nat) (before : List Lexeme) (tree : Tree) :
    Prop where
  notBody : tree.kind ≠ .body
  reads : ∀ expr, Expr.ofTree source tree = .ok expr → expr.ReadAt level before

/-- A tree that denotes an expression that stands on its own, if it denotes one. -/
def Tree.Stands (source : List Char) (tree : Tree) : Prop :=
  ∀ expr, Expr.ofTree source tree = .ok expr → expr.Whole ∧ expr.AllNotes Note.Unannotated

def Parser.Yields {Result : Type} (source : List Char) (parser : Parser Result)
    (good : List Lexeme → Result → Prop) : Prop :=
  ∀ before after result, Laid source before.rest → parser.run before = .ok (result, after) →
    good before.rest result ∧ after.rest <:+ before.rest

def Parser.Level.number : Parser.Level → Nat
  | expression => 1
  | negation => 3
  | signed => 7

theorem Expr.ReadAt.loosen {expr : Expr} {level : Nat} {before : List Lexeme}
    (read : expr.ReadAt level before) (looser : Nat) (below : looser ≤ level)
    (sameSide : 3 < looser ∨ level ≤ 3) : expr.ReadAt looser before where
  readable := read.readable
  unannotated := read.unannotated
  tight := Nat.le_trans below read.tight
  leading starts := by
    have known := read.leading starts
    refine ⟨?_, known.2⟩
    omega

theorem Tree.Reads.loosen {source : List Char} {tree : Tree} {level : Nat} {before : List Lexeme}
    (read : tree.Reads source level before) (looser : Nat) (below : looser ≤ level)
    (sameSide : 3 < looser ∨ level ≤ 3) : tree.Reads source looser before where
  notBody := read.notBody
  reads expr built := (read.reads expr built).loosen looser below sameSide

theorem Tree.Reads.stands {source : List Char} {tree : Tree} {level : Nat} {before : List Lexeme}
    (read : tree.Reads source level before) (whole : level ≤ 3) : tree.Stands source := by
  intro expr built
  have known := read.reads expr built
  refine ⟨⟨?_, known.readable⟩, known.unannotated⟩
  cases leading : expr.leadingNot with
  | false => rfl
  | true =>
      have := (known.leading leading).1
      omega

theorem past_suffix (stream : TokenStream) : stream.past.rest <:+ stream.rest := by
  rw [TokenStream.past_rest]
  exact List.tail_suffix _

theorem laid_after (source : List Char) (before after : List Lexeme) (laid : Laid source before)
    (suffix : after <:+ before) : Laid source after := by
  obtain ⟨taken, whole⟩ := suffix
  rw [← whole] at laid
  exact laid_of_suffix source taken after laid

section Leaves

variable (source : List Char)

theorem leaf_reads_nothing (kind : NodeKind) (span : Span)
    (nothing : kind = .operator ∨ kind = .punctuation ∨ kind = .keyword ∨ kind = .assignOp ∨
      kind = .string) (expr : Expr) : Expr.ofTree source (.leaf kind span) ≠ .ok expr := by
  intro built
  rcases nothing with rfl | rfl | rfl | rfl | rfl <;> cases built

theorem name_reads (stream : TokenStream) (laid : Laid source stream.rest)
    (isName : stream.next.kind = .name) :
    (Tree.leaf .variableName stream.next.span).Reads source 9 stream.rest where
  notBody := nofun
  reads expr built := by
    have going : stream.next.kind ≠ .endOfFile := by rw [isName]; decide
    have sound := next_sound source stream laid going
    cases built
    have text := text_of_leaf source .variableName stream.next sound
    refine ⟨?_, rfl, Nat.le_refl 9, ?_⟩
    · rw [Expr.Readable]
      exact text ▸ sound.spells.named isName
    · intro starts
      refine ⟨by omega, ?_⟩
      rw [stream.rest_of_next going]
      refine ⟨isName, ?_⟩
      rw [← text]
      exact of_decide_eq_true starts

theorem word_of_tree_not_negative (tree : Tree) (value : Word)
    (read : Expr.wordOfTree source tree = .ok value) : 0 ≤ value.toInt := by
  unfold Expr.wordOfTree at read
  simp only at read
  split at read
  · split at read
    · cases read
    · rename_i fits
      cases read
      simp only [Bool.or_eq_true, decide_eq_true_eq, not_or, not_lt] at fits
      have below : readDecimal (tree.text source).toList < 2 ^ 31 := by
        have limit : Int32.maxValue.toInt = 2 ^ 31 - 1 := by decide
        omega
      rw [Int32.toInt_ofNat_of_lt below]
      omega
  · cases read

theorem number_reads (span : Span) (before : List Lexeme) :
    (Tree.leaf .number span).Reads source 9 before where
  notBody := nofun
  reads expr built := by
    change (Expr.wordOfTree source (.leaf .number span) >>= fun value =>
      pure (Expr.lit ⟨span, none⟩ (.int value))) = .ok expr at built
    simp only [bind_succeeds_iff, pure_succeeds_iff] at built
    obtain ⟨value, read, rfl⟩ := built
    refine ⟨word_of_tree_not_negative source _ value read, rfl, Nat.le_refl 9, ?_⟩
    intro impossible
    cases impossible

theorem boolean_reads (span : Span) (before : List Lexeme) :
    (Tree.leaf .boolean span).Reads source 9 before where
  notBody := nofun
  reads expr built := by
    cases built
    exact ⟨trivial, rfl, Nat.le_refl 9, fun impossible => by cases impossible⟩

theorem none_reads (span : Span) (before : List Lexeme) :
    (Tree.leaf .noneWord span).Reads source 9 before where
  notBody := nofun
  reads expr built := by
    cases built
    exact ⟨trivial, rfl, Nat.le_refl 9, fun impossible => by cases impossible⟩

end Leaves

section Branches

variable (source : List Char)

theorem of_binary_succeeds_iff (left sign right : Tree) (expr : Expr) :
    Expr.ofTree source (Parser.binary left sign right) = .ok expr ↔
      ∃ first op second, Expr.ofTree source left = .ok first ∧
        Expr.binaryOpOfTree source sign = .ok op ∧ Expr.ofTree source right = .ok second ∧
        expr = .binary ⟨(Parser.binary left sign right).span, none⟩ op first second := by
  change (do
    let first ← Expr.ofTree source left
    let op ← Expr.binaryOpOfTree source sign
    let second ← Expr.ofTree source right
    Tree.expectEnd source []
    return Expr.binary _ op first second) = .ok expr ↔ _
  simp only [bind_succeeds_iff, pure_succeeds_iff, expect_end_succeeds_iff]
  constructor
  · rintro ⟨first, builtFirst, op, builtOp, second, builtSecond, _, _, rfl⟩
    exact ⟨first, op, second, builtFirst, builtOp, builtSecond, rfl⟩
  · rintro ⟨first, op, second, builtFirst, builtOp, builtSecond, rfl⟩
    exact ⟨first, builtFirst, op, builtOp, second, builtSecond, (), trivial, rfl⟩

theorem of_unary_succeeds_iff (sign operand : Tree) (expr : Expr) :
    Expr.ofTree source (.branch .unaryExpression [sign, operand]) = .ok expr ↔
      ∃ op inner, Expr.unaryOpOfTree source sign = .ok op ∧
        Expr.ofTree source operand = .ok inner ∧
        expr = .unary ⟨(Tree.branch .unaryExpression [sign, operand]).span, none⟩ op inner := by
  change (do
    let op ← Expr.unaryOpOfTree source sign
    let inner ← Expr.ofTree source operand
    Tree.expectEnd source []
    return Expr.unary _ op inner) = .ok expr ↔ _
  simp only [bind_succeeds_iff, pure_succeeds_iff, expect_end_succeeds_iff]
  constructor
  · rintro ⟨op, builtOp, inner, builtInner, _, _, rfl⟩
    exact ⟨op, inner, builtOp, builtInner, rfl⟩
  · rintro ⟨op, inner, builtOp, builtInner, rfl⟩
    exact ⟨op, builtOp, inner, builtInner, (), trivial, rfl⟩

theorem of_paren_succeeds_iff (opening inner closing : Tree) (expr : Expr) :
    Expr.ofTree source (.branch .parenthesizedExpression [opening, inner, closing]) = .ok expr ↔
      ∃ found, opening.expectText source "(" = .ok () ∧ Expr.ofTree source inner = .ok found ∧
        closing.expectText source ")" = .ok () ∧
        expr = .paren
          ⟨(Tree.branch .parenthesizedExpression [opening, inner, closing]).span, none⟩ found := by
  change (do
    opening.expectText source "("
    let found ← Expr.ofTree source inner
    closing.expectText source ")"
    Tree.expectEnd source []
    return Expr.paren _ found) = .ok expr ↔ _
  simp only [bind_succeeds_iff, pure_succeeds_iff, expect_end_succeeds_iff]
  constructor
  · rintro ⟨_, opened, found, builtFound, _, closed, _, _, rfl⟩
    exact ⟨found, opened, builtFound, closed, rfl⟩
  · rintro ⟨found, opened, builtFound, closed, rfl⟩
    exact ⟨(), opened, found, builtFound, (), closed, (), trivial, rfl⟩

theorem of_call_succeeds_iff (callee list : Tree) (expr : Expr) :
    Expr.ofTree source (.branch .callExpression [callee, list]) = .ok expr ↔
      ∃ args, callee.kind = .variableName ∧ list.kind = .argList ∧
        Expr.argsOfTree source list = .ok args ∧
        expr = .call ⟨(Tree.branch .callExpression [callee, list]).span, none⟩
          (callee.text source) args := by
  change (do
    Expr.expectCallee source callee
    list.expectKind source .argList
    let args ← Expr.argsOfTree source list
    Tree.expectEnd source []
    return Expr.call _ (callee.text source) args) = .ok expr ↔ _
  simp only [bind_succeeds_iff, pure_succeeds_iff, expect_end_succeeds_iff,
    expect_kind_succeeds_iff, Expr.expectCallee]
  constructor
  · rintro ⟨_, named, _, listed, args, builtArgs, _, _, rfl⟩
    refine ⟨args, ?_, listed, builtArgs, rfl⟩
    by_contra unnamed
    rw [if_neg unnamed] at named
    cases named
  · rintro ⟨args, named, listed, builtArgs, rfl⟩
    exact ⟨(), by rw [if_pos named], (), listed, args, builtArgs, (), trivial, rfl⟩

/-- The tree of a name denotes that name. -/
theorem of_named_tree (tree : Tree) (named : tree.kind = .variableName) :
    Expr.ofTree source tree = .ok (.name ⟨tree.span, none⟩ (tree.text source)) := by
  rcases tree with ⟨kind, span, children⟩
  cases named
  rfl

theorem member_denotes_nothing (parts : List Tree) (expr : Expr) :
    Expr.ofTree source (.branch .memberExpression parts) ≠ .ok expr := by
  intro impossible
  cases impossible

theorem args_of_parts_stand (before : Tree) (parts : List Tree)
    (stand : ∀ part ∈ parts, part.Stands source) (args : List Expr)
    (read : Expr.argsOfParts source before parts = .ok args) :
    Expr.AllWhole args ∧ Expr.NotesOfAll Note.Unannotated args := by
  match parts with
  | [] => cases read
  | item :: tail =>
      rw [Expr.argsOfParts] at read
      split at read
      · simp only [bind_succeeds_iff, pure_succeeds_iff] at read
        obtain ⟨_, _, rfl⟩ := read
        exact ⟨trivial, trivial⟩
      · simp only [bind_succeeds_iff] at read
        obtain ⟨arg, builtArg, read⟩ := read
        obtain ⟨whole, unannotated⟩ := stand item (by simp) arg builtArg
        cases tail with
        | nil => cases read
        | cons separator rest =>
            simp only at read
            split at read
            · simp only [bind_succeeds_iff, pure_succeeds_iff] at read
              obtain ⟨others, builtOthers, rfl⟩ := read
              have later := args_of_parts_stand separator rest
                (fun part member => stand part (by simp [member])) others builtOthers
              exact ⟨⟨whole, later.1⟩, unannotated, later.2⟩
            · split at read
              · simp only [bind_succeeds_iff, pure_succeeds_iff] at read
                obtain ⟨_, _, rfl⟩ := read
                exact ⟨⟨whole, trivial⟩, unannotated, trivial⟩
              · cases read

end Branches

section Steps

variable (source : List Char)

/-- A step that is repeated keeps what each of its turns keeps. -/
theorem extend_up_to_yields (step : Tree → Parser (Option Tree)) (good : Tree → Prop)
    (steps : ∀ tree, good tree → Parser.Yields source (step tree)
      fun _ answer => ∀ larger, answer = some larger → good larger)
    (count : Nat) (tree : Tree) (start : good tree) :
    Parser.Yields source (Parser.extendUpTo step count tree) fun _ => good := by
  induction count generalizing tree with
  | zero =>
      intro before after result _ run
      cases run
      exact ⟨start, List.suffix_refl _⟩
  | succ count induction =>
      intro before after result laid run
      rw [Parser.extendUpTo, run_bind_succeeds_iff] at run
      obtain ⟨answer, middle, ran, run⟩ := run
      obtain ⟨kept, suffix⟩ := steps tree start before middle answer laid ran
      cases answer with
      | none =>
          cases run
          exact ⟨start, suffix⟩
      | some larger =>
          have next := induction larger (kept larger rfl) middle after result
            (laid_after source _ _ laid suffix) run
          exact ⟨next.1, next.2.trans suffix⟩

/-- An operator that does not take the name `not` for the start of its right operand, and that
belongs to a level where it is an operator of programs. -/
def SignFits (level : Nat) (sign : Tree) (after : List Lexeme) : Prop :=
  ∀ op, Expr.binaryOpOfTree source sign = .ok op →
    op.level = level ∧ (op = .is → ¬StartsWithNot after)

theorem binary_reads (level : Nat) (left sign right : Tree) (before middle : List Lexeme)
    (readsLeft : left.Reads source level before) (fits : SignFits source level sign middle)
    (readsRight : right.Reads source (level + 1) middle) :
    (Parser.binary left sign right).Reads source level before where
  notBody := nofun
  reads expr built := by
    obtain ⟨first, op, second, builtFirst, builtOp, builtSecond, rfl⟩ :=
      (of_binary_succeeds_iff source left sign right expr).mp built
    have readFirst := readsLeft.reads first builtFirst
    have readSecond := readsRight.reads second builtSecond
    obtain ⟨sameLevel, notNot⟩ := fits op builtOp
    refine ⟨⟨?_, ?_, ?_, readFirst.readable, readSecond.readable⟩,
      ⟨rfl, readFirst.unannotated, readSecond.unannotated⟩, ?_, readFirst.leading⟩
    · rw [sameLevel]
      exact readFirst.tight
    · rw [sameLevel]
      exact readSecond.tight
    · intro isOp
      cases leading : second.leadingNot with
      | false => rfl
      | true => exact absurd (readSecond.leading leading).2 (notNot isOp)
    · rw [Expr.level, sameLevel]

theorem chain_yields (level : Nat) (operator : Parser (Option Tree)) (operand : Parser Tree)
    (operators : ∀ before after sign, Laid source before.rest →
      operator.run before = .ok (some sign, after) →
      SignFits source level sign after.rest ∧ after.rest <:+ before.rest)
    (nothing : ∀ before after, operator.run before = .ok (none, after) → after = before)
    (operands : Parser.Yields source operand fun before tree =>
      tree.Reads source (level + 1) before)
    (sameSide : 3 < level ∨ level + 1 ≤ 3) :
    Parser.Yields source (Parser.chain operator operand) fun before tree =>
      tree.Reads source level before := by
  intro before after result laid run
  rw [Parser.chain, run_bind_succeeds_iff] at run
  obtain ⟨left, middle, ran, run⟩ := run
  obtain ⟨readsOperand, suffix⟩ := operands before middle left laid ran
  have readsLeft := readsOperand.loosen level (Nat.le_succ level) sameSide
  rw [Parser.extended, StateT.run_bind, Parser.remaining_run, ok_bind] at run
  -- The invariant of the repetition is that the tree so far is one of this level.
  have kept := extend_up_to_yields source _ (fun tree => tree.Reads source level before.rest)
    (fun tree readsTree => ?_) _ left readsLeft middle after result
      (laid_after source _ _ laid suffix) run
  · exact ⟨kept.1, kept.2.trans suffix⟩
  · intro start finish answer laidStart step
    rw [run_bind_succeeds_iff] at step
    obtain ⟨sign, signed, ranSign, step⟩ := step
    cases sign with
    | none =>
        cases step
        rw [nothing start _ ranSign]
        exact ⟨fun _ impossible => (by cases impossible), List.suffix_refl _⟩
    | some sign =>
        obtain ⟨fits, suffixSign⟩ := operators start signed sign laidStart ranSign
        rw [run_bind_succeeds_iff] at step
        obtain ⟨right, last, ranRight, step⟩ := step
        cases step
        obtain ⟨readsRight, suffixRight⟩ := operands signed finish right
          (laid_after source _ _ laidStart suffixSign) ranRight
        refine ⟨fun larger same => ?_, suffixRight.trans suffixSign⟩
        cases same
        exact binary_reads source level tree sign right before.rest signed.rest readsTree fits
          readsRight

theorem spelled_sign_fits (level : Nat) (stream : TokenStream) (after : List Lexeme)
    (laid : Laid source stream.rest) (word : String)
    (spelling : stream.next.kind.spelling? = some word)
    (fits : ∀ op, BinaryOp.ofSymbol? (joinWords word) = some op → op.level = level ∧ op ≠ .is) :
    SignFits source level (.leaf .operator stream.next.span) after := by
  intro op built
  have going : stream.next.kind ≠ .endOfFile := by
    intro isEnd
    rw [isEnd] at spelling
    cases spelling
  have sound := next_sound source stream laid going
  have known := ((binary_op_of_tree_succeeds_iff source _ op).mp built).2
  rw [text_of_leaf source .operator stream.next sound, sound.spells.spelled word spelling] at known
  exact ⟨(fits op known).1, fun isOp => absurd isOp (fits op known).2⟩

theorem word_sign_fits (level : Nat) (stream : TokenStream) (after : List Lexeme)
    (laid : Laid source stream.rest) (word : String) (isName : stream.next.kind = .name)
    (text : stream.next.text = word)
    (fits : ∀ op, BinaryOp.ofSymbol? (joinWords word) = some op →
      op.level = level ∧ (op = .is → ¬StartsWithNot after)) :
    SignFits source level (.leaf .operator stream.next.span) after := by
  intro op built
  have sound := next_sound source stream laid (by rw [isName]; decide)
  have known := ((binary_op_of_tree_succeeds_iff source _ op).mp built).2
  rw [text_of_leaf source .operator stream.next sound, text] at known
  exact fits op known

theorem unknown_word_fits (level : Nat) (stream : TokenStream) (after : List Lexeme)
    (laid : Laid source stream.rest) (word : String)
    (unknown : BinaryOp.ofSymbol? (joinWords word) = none)
    (isWord : stream.next.kind = .name ∧ stream.next.text = word) :
    SignFits source level (.leaf .operator stream.next.span) after := by
  apply word_sign_fits source level stream after laid word isWord.1 isWord.2
  intro op impossible
  rw [unknown] at impossible
  cases impossible

theorem operator_among_fits (level : Nat) (kinds : List TokenKind)
    (known : ∀ kind ∈ kinds, ∃ word, kind.spelling? = some word ∧
      ∀ op, BinaryOp.ofSymbol? (joinWords word) = some op → op.level = level ∧ op ≠ .is)
    (before after : TokenStream) (sign : Tree) (laid : Laid source before.rest)
    (run : (Parser.operatorAmong kinds).run before = .ok (some sign, after)) :
    SignFits source level sign after.rest ∧ after.rest <:+ before.rest := by
  rw [Parser.operator_among_run] at run
  split at run
  · rename_i member
    cases run
    obtain ⟨word, spelling, fits⟩ := known _ member
    exact ⟨spelled_sign_fits source level before _ laid word spelling fits, past_suffix before⟩
  · cases run

theorem operator_word_fits (level : Nat) (word : String)
    (unknown : BinaryOp.ofSymbol? (joinWords word) = none) (before after : TokenStream)
    (sign : Tree) (laid : Laid source before.rest)
    (run : (Parser.operatorWord word).run before = .ok (some sign, after)) :
    SignFits source level sign after.rest ∧ after.rest <:+ before.rest := by
  rw [Parser.operator_word_run] at run
  split at run
  · rename_i isWord
    cases run
    exact ⟨unknown_word_fits source level before _ laid word unknown isWord, past_suffix before⟩
  · cases run

theorem starts_with_not_iff (stream : TokenStream) :
    StartsWithNot stream.rest ↔ stream.next.kind = .name ∧ stream.next.text = "not" := by
  unfold TokenStream.next
  cases stream.rest with
  | nil => simp [StartsWithNot]
  | cons next rest => rfl

/-- A comparison takes `is` for an operator only where `not` does not follow, and its operators of
two words are none of programs. -/
theorem comparison_operator_fits (before after : TokenStream) (sign : Tree)
    (laid : Laid source before.rest)
    (run : Parser.comparisonOperator.run before = .ok (some sign, after)) :
    SignFits source 4 sign after.rest ∧ after.rest <:+ before.rest := by
  -- The two words stand in the tree as one leaf, which denotes no operator.
  have twoWords : ∀ second : TokenStream, Laid source second.rest → second.next.kind = .name →
      second.next.text = "not" ∨ second.next.text = "in" → ∀ first rest,
      SignFits source 4 (.leaf .operator (Span.through first second.next.span)) rest := by
    intro second laidSecond isName word first rest op built
    have sound := next_sound source second laidSecond (by rw [isName]; decide)
    exact absurd built (two_words_denote_no_operator source ⟨.name, first, ""⟩ _ sound word op)
  have laidPast := laid_past source before laid
  have suffixes := (past_suffix before.past).trans (past_suffix before)
  simp only [Parser.comparisonOperator, StateT.run_bind, Parser.peek_run, ok_bind] at run
  -- The parser asks for the signs first, then for `in`, `is` and `not` in this order.
  split at run
  · rename_i member
    rw [StateT.run_bind, Parser.take_run, ok_bind] at run
    cases run
    refine ⟨?_, past_suffix before⟩
    have member := List.contains_iff_mem.mp member
    simp only [List.mem_cons, List.not_mem_nil, or_false] at member
    have spelled := spelled_sign_fits source 4 before before.past.rest laid
    rcases member with isKind | isKind | isKind | isKind | isKind | isKind
    · exact spelled "==" (by rw [isKind]; rfl) (by decide +kernel)
    · exact spelled "!=" (by rw [isKind]; rfl) (by decide +kernel)
    · exact spelled "<" (by rw [isKind]; rfl) (by decide +kernel)
    · exact spelled ">" (by rw [isKind]; rfl) (by decide +kernel)
    · exact spelled "<=" (by rw [isKind]; rfl) (by decide +kernel)
    · exact spelled ">=" (by rw [isKind]; rfl) (by decide +kernel)
  · simp only [StateT.run_bind, Parser.at_word_run, ok_bind] at run
    split at run
    · rename_i isIn
      rw [StateT.run_bind, Parser.take_run, ok_bind] at run
      cases run
      exact ⟨unknown_word_fits source 4 before _ laid "in" (by decide +kernel)
        (of_decide_eq_true isIn), past_suffix before⟩
    · simp only [StateT.run_bind, Parser.at_word_run, ok_bind] at run
      split at run
      · rename_i isIs
        have isIs := of_decide_eq_true isIs
        simp only [StateT.run_bind, Parser.take_run, Parser.at_word_run, ok_bind] at run
        split at run
        · rename_i isNot
          have isNot := of_decide_eq_true isNot
          rw [StateT.run_bind, Parser.take_run, ok_bind] at run
          cases run
          exact ⟨twoWords before.past laidPast isNot.1 (Or.inl isNot.2) _ _, suffixes⟩
        · rename_i notNot
          cases run
          refine ⟨word_sign_fits source 4 before _ laid "is" isIs.1 isIs.2 ?_, past_suffix before⟩
          intro op known
          have level : op.level = 4 := by
            revert op
            decide +kernel
          refine ⟨level, fun _ starts => notNot ?_⟩
          exact decide_eq_true ((starts_with_not_iff before.past).mp starts)
      · simp only [StateT.run_bind, Parser.at_word_run, ok_bind] at run
        split at run
        · simp only [StateT.run_bind, Parser.take_run, Parser.at_word_run, ok_bind] at run
          split at run
          · rename_i isIn
            have isIn := of_decide_eq_true isIn
            rw [StateT.run_bind, Parser.take_run, ok_bind] at run
            cases run
            exact ⟨twoWords before.past laidPast isIn.1 (Or.inr isIn.2) _ _, suffixes⟩
          · rw [StateT.run_bind, Parser.peek_run, ok_bind] at run
            cases run
        · cases run

theorem operator_among_leaves (kinds : List TokenKind) (before after : TokenStream)
    (run : (Parser.operatorAmong kinds).run before = .ok (none, after)) : after = before := by
  rw [Parser.operator_among_run] at run
  split at run <;> cases run
  rfl

theorem operator_word_leaves (word : String) (before after : TokenStream)
    (run : (Parser.operatorWord word).run before = .ok (none, after)) : after = before := by
  rw [Parser.operator_word_run] at run
  split at run <;> cases run
  rfl

theorem comparison_operator_leaves (before after : TokenStream)
    (run : Parser.comparisonOperator.run before = .ok (none, after)) : after = before := by
  simp only [Parser.comparisonOperator, StateT.run_bind, Parser.peek_run, ok_bind] at run
  split at run
  · rw [StateT.run_bind, Parser.take_run] at run
    cases run
  · simp only [StateT.run_bind, Parser.at_word_run, ok_bind] at run
    split at run
    · rw [StateT.run_bind, Parser.take_run] at run
      cases run
    · simp only [StateT.run_bind, Parser.at_word_run, ok_bind] at run
      split at run
      · simp only [StateT.run_bind, Parser.take_run, Parser.at_word_run, ok_bind] at run
        split at run
        · rw [StateT.run_bind, Parser.take_run] at run
          cases run
        · cases run
      · simp only [StateT.run_bind, Parser.at_word_run, ok_bind] at run
        split at run
        · simp only [StateT.run_bind, Parser.take_run, Parser.at_word_run, ok_bind] at run
          split at run
          · rw [StateT.run_bind, Parser.take_run] at run
            cases run
          · rw [StateT.run_bind, Parser.peek_run] at run
            cases run
        · cases run
          rfl

/-- The parts of a list in parentheses are its items and marks. -/
theorem listed_yields (item : Parser (List Tree)) (good : Tree → Prop)
    (items : Parser.Yields source item fun _ parts => ∀ part ∈ parts, good part)
    (marks : ∀ span, good (.leaf .punctuation span)) (count : Nat) :
    Parser.Yields source (Parser.parenthesized.listed item count)
      fun _ parts => ∀ part ∈ parts, good part := by
  induction count with
  | zero =>
      intro before after result _ run
      cases run
      exact ⟨fun _ impossible => (by cases impossible), List.suffix_refl _⟩
  | succ count induction =>
      intro before after result laid run
      rw [Parser.parenthesized.listed, StateT.run_bind, Parser.peek_run, ok_bind] at run
      split at run
      · cases run
        exact ⟨fun _ impossible => (by cases impossible), List.suffix_refl _⟩
      · rw [run_bind_succeeds_iff] at run
        obtain ⟨parts, middle, ran, run⟩ := run
        obtain ⟨goodParts, suffix⟩ := items before middle parts laid ran
        rw [StateT.run_bind, Parser.take_if_run] at run
        split at run
        · rw [ok_bind] at run
          simp only [run_bind_succeeds_iff, run_pure_succeeds_iff] at run
          obtain ⟨later, last, ranLater, rfl, rfl⟩ := run
          obtain ⟨goodLater, suffixLater⟩ := induction middle.past _ later
            (laid_past source middle (laid_after source _ _ laid suffix)) ranLater
          refine ⟨?_, suffixLater.trans ((past_suffix middle).trans suffix)⟩
          intro part member
          rcases List.mem_append.mp member with here | member
          · exact goodParts part here
          · rcases List.mem_cons.mp member with rfl | there
            · exact marks _
            · exact goodLater part there
        · cases run
          exact ⟨goodParts, suffix⟩

theorem parenthesized_yields (kind : NodeKind) (item : Parser (List Tree)) (good : Tree → Prop)
    (items : Parser.Yields source item fun _ parts => ∀ part ∈ parts, good part)
    (marks : ∀ span, good (.leaf .punctuation span)) :
    Parser.Yields source (Parser.parenthesized kind item)
      fun _ tree => tree.kind = kind ∧ ∀ part ∈ tree.children, good part := by
  intro before after result laid run
  rw [Parser.parenthesized, run_bind_succeeds_iff] at run
  simp only [Parser.expect_succeeds_iff] at run
  obtain ⟨opening, _, ⟨_, rfl, rfl⟩, run⟩ := run
  rw [StateT.run_bind, Parser.remaining_run, ok_bind] at run
  simp only [run_bind_succeeds_iff, Parser.expect_succeeds_iff, run_pure_succeeds_iff] at run
  obtain ⟨parts, middle, ran, _, _, ⟨_, rfl, rfl⟩, rfl, rfl⟩ := run
  obtain ⟨goodParts, suffix⟩ := listed_yields source item good items marks _ before.past middle
    parts (laid_past source before laid) ran
  refine ⟨⟨rfl, ?_⟩, (past_suffix middle).trans (suffix.trans (past_suffix before))⟩
  intro part member
  change part ∈ Tree.leaf .punctuation before.next.span :: parts ++
    [Tree.leaf .punctuation middle.next.span] at member
  simp only [List.cons_append, List.mem_cons, List.mem_append, List.not_mem_nil, or_false] at member
  rcases member with rfl | member | rfl
  · exact marks _
  · exact goodParts part member
  · exact marks _

end Steps

end ScriptWasm
