import ScriptWasm.Proofs.Tree.Mirrors

/-!
Expressions that are read side by side. Each layer of the grammar is mirrored when the layers that
it goes back to are, and a layer that may go deeper mirrors one that may not.
-/

namespace ScriptWasm

set_option autoImplicit false

namespace Parser

open TokenStream

def MirrorsTrees (source edited : List Char) (first second : Parser Tree) : Prop :=
  Mirrors (SameLeft source edited) (SameLeft source edited) (Tree.Retells source edited) first
    second

section Chains

variable {source edited : List Char}

theorem same_operators (first second : Option Tree)
    (same : Option.Rel (Tree.SameWord source edited) first second) :
    Option.Rel (SameOperator source edited) first second := by
  cases same with
  | none => exact .none
  | some words => exact .some (same_operator_of_word _ _ words)

theorem layer_operator_length (layer : Layer) (before after : TokenStream) (sign : Tree)
    (run : layer.operator.run before = .ok (some sign, after)) :
    after.rest.length < before.rest.length := by
  obtain ⟨taken, split, joins⟩ := layer_operator_takes before after sign layer run
  have filled : taken ≠ [] := by cases joins <;> exact List.cons_ne_nil _ _
  have positive := List.length_pos_iff.mpr filled
  rw [split, List.length_append]
  omega

theorem chain_mirrors (layer : Layer) (operand again : Parser Tree)
    (operators : Mirrors (SameLeft source edited) (SameLeft source edited)
      (Option.Rel (SameOperator source edited)) layer.operator layer.operator)
    (operands : MirrorsTrees source edited operand again)
    (takes : Takes operand (Grammar anyName layer.tighter)) :
    MirrorsTrees source edited (chain layer.operator operand) (chain layer.operator again) := by
  refine mirrors_bind _ _ _ _ operands fun first copy same =>
    extended_mirrors _ _ _ (fun left other retells => ?_) ?_ first copy same
  · refine mirrors_bind _ _ _ _ operators fun sign mark signs => ?_
    cases signs with
    | none => exact mirrors_pure _ _ .none fun _ _ left => left
    | some signs =>
        exact mirrors_last _ _ _ _ operands fun right answer inner =>
          .some (binary_retells _ _ _ _ _ _ retells signs inner)
  · intro left before after larger run
    obtain ⟨answer, middle, ran, run⟩ := (run_bind_succeeds_iff _ _ _ _ _).mp run
    cases answer with
    | none => cases run
    | some sign =>
        obtain ⟨right, _, ranRight, run⟩ := (run_bind_succeeds_iff _ _ _ _ _).mp run
        cases run
        have shorter := layer_operator_length layer before middle sign ran
        have fewer := takes_length_le operand _ takes middle _ right ranRight
        omega

end Chains

section Layers

variable {source edited : List Char} (parse again : Level → Parser Tree)
variable (levels : ∀ level, MirrorsTrees source edited (parse level) (again level))
variable (goesBack : ∀ level : Level, Takes (parse level) (Grammar anyName level.layer))

include levels

theorem primary_mirrors : MirrorsTrees source edited (primary parse) (primary again) := by
  have leaf : ∀ kind node, kind ∉ leaflessKinds →
      Mirrors (Facing source edited kind kind) (SameLeft source edited)
        (Tree.Retells source edited) (take node) (take node) := fun kind node isLeaf =>
    mirrors_answers _ _ (take_mirrors kind node isLeaf) fun _ _ same => same.retells
  refine mirrors_peek _ _ (fun lexeme copy kinds => ?_) fun lexeme copy closes isNewline => ?_
  · rw [kinds]
    split <;> rename_i isKind <;> try rw [isKind]
    · exact leaf .name .variableName (by decide)
    · exact leaf .number .number (by decide)
    · exact leaf .string .string (by decide)
    · exact leaf .trueWord .boolean (by decide)
    · exact leaf .falseWord .boolean (by decide)
    · exact leaf .noneWord .noneWord (by decide)
    · refine mirrors_bind _ _ _ _ (take_mirrors .leftParen .punctuation (by decide))
        fun opening opened opens => ?_
      refine mirrors_bind _ _ _ _ (levels .expression) fun inner other same => ?_
      exact mirrors_last _ _ _ _ (expect_mirrors .rightParen .punctuation (by decide))
        fun closing closed closes => paren_retells _ _ _ _ _ _ opens same closes
    · exact mirrors_never _ _ (unexpected_fails _)
  · rcases closes with isKind | isKind <;> rw [isKind] <;>
      exact mirrors_never _ _ (unexpected_fails _)

include goesBack

theorem arguments_mirror :
    Mirrors (SameLeft source edited) (SameLeft source edited) (Tree.RetellsArguments source edited)
      (arguments parse) (arguments again) := by
  have items : Mirrors (SameLeft source edited) (SameLeft source edited)
      (fun item copy => ∃ tree other, item = [tree] ∧ copy = [other] ∧
        tree.Retells source edited other)
      (do return [← parse .expression]) (do return [← again .expression]) :=
    mirrors_last _ _ _ _ (levels .expression) fun tree other same => ⟨tree, other, rfl, rfl, same⟩
  have takes : Takes (do return [← parse .expression]) fun parts taken =>
      ∃ item, parts = [item] ∧ Grammar anyName .disjunction item taken :=
    takes_last _ _ (goesBack .expression) fun tree taken whole => ⟨tree, rfl, whole⟩
  refine mirrors_answers _ _ (parenthesized_mirrors .argList _ _ _ _ items takes) ?_
  rintro _ _ ⟨opening, parts, closing, opened, copies, closed, rfl, rfl, opens, closes, listed⟩
  exact arguments_retell opening closing opened closed parts copies opens closes listed

theorem postfixed_mirrors : MirrorsTrees source edited (postfixed parse) (postfixed again) := by
  refine mirrors_bind _ _ _ _ (primary_mirrors parse again levels) fun first copy same =>
    extended_mirrors _ _ _ (fun value other retells => ?_) ?_ first copy same
  · refine mirrors_peek _ _ (fun lexeme copy kinds => ?_) fun lexeme copy closes isNewline => ?_
    · rw [kinds]
      split
      · refine mirrors_early _ _ ?_ fun _ _ facing => facing.left
        exact mirrors_last _ _ _ _ (arguments_mirror parse again levels goesBack)
          fun list lists same => .some (call_retells _ _ _ _ retells same)
      · rename_i isDot
        rw [isDot]
        refine mirrors_bind _ _ _ _ (take_mirrors .dot .punctuation (by decide))
          fun dot dotted _ => ?_
        exact mirrors_last _ _ _ _ expect_name_mirrors
          fun member name _ => .some (member_retells _ _)
      · exact mirrors_pure _ _ .none fun _ _ facing => facing.left
    · rcases closes with isKind | isKind <;> rw [isKind, isNewline] <;>
        exact mirrors_pure _ _ .none fun _ _ facing => facing.left
  -- A call and an attribute take a lexeme at least, so the repetition comes to its end.
  · intro value before after larger run
    rw [StateT.run_bind, peek_run, ok_bind] at run
    split at run
    · obtain ⟨list, _, ran, run⟩ := (run_bind_succeeds_iff _ _ _ _ _).mp run
      cases run
      obtain ⟨taken, split, opening, _, _, _, _, _, rfl, _⟩ :=
        arguments_takes parse goesBack before _ list ran
      rw [split]
      simp
      omega
    · rename_i isDot
      rw [StateT.run_bind, take_run, ok_bind] at run
      obtain ⟨name, _, ran, run⟩ := (run_bind_succeeds_iff _ _ _ _ _).mp run
      cases run
      have fewer := takes_length_le _ _ expect_name_takes before.past _ name ran
      rw [takes_next before .dot isDot (by decide), List.singleton_append, List.length_cons]
      omega
    · cases run

theorem powered_mirrors : MirrorsTrees source edited (powered parse) (powered again) := by
  refine mirrors_bind _ _ _ _ (postfixed_mirrors parse again levels goesBack)
    fun base copy same => ?_
  refine mirrors_bind _ _ _ _ (take_if_mirrors .power .operator (by decide))
    fun sign mark signs => ?_
  cases signs with
  | none => exact mirrors_pure _ _ same fun _ _ left => left
  | some signs =>
      exact mirrors_last _ _ _ _ (levels .signed) fun exponent other inner =>
        binary_retells _ _ _ _ _ _ same (same_operator_of_word _ _ signs) inner

theorem signed_mirrors : MirrorsTrees source edited (signed parse) (signed again) := by
  refine mirrors_bind _ _ _ _ (operator_among_mirrors [.plus, .minus] (by decide))
    fun sign mark signs => ?_
  cases signs with
  | none => exact powered_mirrors parse again levels goesBack
  | some signs =>
      exact mirrors_last _ _ _ _ (levels .signed) fun operand other inner =>
        unary_retells _ _ _ _ signs inner

theorem comparison_mirrors : MirrorsTrees source edited (comparison parse) (comparison again) := by
  refine chain_mirrors .comparison _ _ comparison_operator_mirrors ?_
    (chain_takes .sum _ (chain_takes .product _ (signed_takes parse goesBack)))
  refine chain_mirrors .sum _ _
    (mirrors_answers _ _ (operator_among_mirrors _ (by decide)) same_operators) ?_
    (chain_takes .product _ (signed_takes parse goesBack))
  exact chain_mirrors .product _ _
    (mirrors_answers _ _ (operator_among_mirrors _ (by decide)) same_operators)
    (signed_mirrors parse again levels goesBack) (signed_takes parse goesBack)

theorem negation_mirrors : MirrorsTrees source edited (negation parse) (negation again) := by
  refine mirrors_bind _ _ _ _ (operator_word_mirrors "not") fun sign mark signs => ?_
  cases signs with
  | none => exact comparison_mirrors parse again levels goesBack
  | some signs =>
      exact mirrors_last _ _ _ _ (levels .negation) fun operand other inner =>
        unary_retells _ _ _ _ signs inner

theorem disjunction_mirrors :
    MirrorsTrees source edited (disjunction parse) (disjunction again) := by
  refine chain_mirrors .disjunction _ _
    (mirrors_answers _ _ (operator_word_mirrors "or") same_operators) ?_
    (chain_takes .conjunction _ (negation_takes parse goesBack))
  exact chain_mirrors .conjunction _ _
    (mirrors_answers _ _ (operator_word_mirrors "and") same_operators)
    (negation_mirrors parse again levels goesBack) (negation_takes parse goesBack)

end Layers

section Expressions

variable {source edited : List Char}

theorem expression_up_to_mirrors (depth more : Nat) (deeper : depth ≤ more) (level : Level) :
    MirrorsTrees source edited (expressionUpTo depth level) (expressionUpTo more level) := by
  induction depth generalizing more level with
  -- Without depth the first parser answers nothing, whatever depth the second has.
  | zero => exact mirrors_never _ _ (unexpected_fails _)
  | succ depth induction =>
      obtain ⟨less, rfl⟩ : ∃ less, more = less + 1 := ⟨more - 1, by omega⟩
      have levels := induction less (Nat.le_of_succ_le_succ deeper)
      have goesBack := expression_up_to_takes depth
      cases level with
      | expression => exact disjunction_mirrors _ _ levels goesBack
      | negation => exact negation_mirrors _ _ levels goesBack
      | signed => exact signed_mirrors _ _ levels goesBack

theorem expression_mirrors : MirrorsTrees source edited expression expression :=
  mirrors_remaining _ _ fun count more deeper =>
    mirrors_early _ _ (expression_up_to_mirrors count more deeper .expression)
      fun _ _ bounded => bounded.left

theorem bases_mirror (depth more : Nat) (deeper : depth ≤ more) :
    Mirrors (SameLeft source edited) (SameLeft source edited) (Tree.RetellsArguments source edited)
      (arguments (expressionUpTo depth)) (arguments (expressionUpTo more)) :=
  arguments_mirror _ _ (expression_up_to_mirrors depth more deeper) (expression_up_to_takes depth)

end Expressions

end Parser

end ScriptWasm
