import ScriptWasm.Proofs.Tree.Agreement

/-!
Expressions with and without bounds. Before an expression goes back to a looser layer a lexeme has
been taken, so as many returns as there are lexemes ahead are enough.
-/

namespace ScriptWasm

set_option autoImplicit false

open ScriptWasm.Parser

theorem layer_called {lexeme : Lexeme} {bound : Nat} {least : Tree → Nat} {layer : Layer}
    {parser : Parser Tree}
    (agrees : AgreesAt lexeme bound least (Unbounded.layer · layer) parser) :
    AgreesAt lexeme bound least (·.layer layer) parser :=
  agrees.called fun _ => rfl

section Layers

variable {bound : Nat} {parse : Level → Parser Tree}
  (goesBack : ∀ level, Agrees (bound - 1) (fun _ => 1) (·.layer level.layer) (parse level))

include goesBack

theorem primary_agrees :
    Agrees bound (fun _ => 1) (·.layer .primary) (primary parse) := by
  intro lexeme
  apply layer_called
  apply agrees_seeing
  cases here : lexeme.kind
  case leftParen =>
    apply agrees_at_bind (steady_at_take (by rw [here]; decide) _)
    intro opening lexeme
    apply agrees_at_bind (goesBack .expression lexeme)
    intro inner lexeme
    apply agrees_at_bind ((steady_expect _ _ (by decide) lexeme).fewer fun _ => Nat.zero_le _)
    intro closing lexeme
    exact agrees_pure _ _ rfl
  case name | number | string | trueWord | falseWord | noneWord =>
    exact steady_at_take (by rw [here]; decide) _
  all_goals exact steady_unexpected _ _ lexeme

omit goesBack in
theorem argument_items_eq (calls : Calls) :
    Unbounded.argumentItems calls = (do
      if (← peek.ended).kind = .rightParen then return []
      let parts ← (do return [← calls.layer .disjunction])
      match ← (takeIf .comma .punctuation).ended with
      | none => return parts
      | some comma => return parts ++ comma :: (← calls.argumentItems)) := by
  simp only [bind_assoc, pure_bind]
  rfl

theorem arguments_agree : Agrees bound (fun _ => 1) Unbounded.arguments (arguments parse) := by
  apply parenthesized_agrees (·.argumentItems) argument_items_eq
  intro lexeme
  apply agrees_at_bind (goesBack .expression lexeme)
  intro item lexeme
  exact agrees_pure _ _ rfl

omit goesBack in
theorem members_eq (value : Tree) (calls : Calls) :
    Unbounded.members calls value = (do
      match (← peek.ended).kind with
      | .leftParen => return some (.branch .callExpression [value, ← Unbounded.arguments calls])
      | .dot => do
          let dot ← (take .punctuation).ended
          let member ← expectName.ended
          return some (.branch .memberExpression [value, dot, member])
      | _ => return none) >>= fun answer =>
        match answer with
        | none => pure value
        | some larger => calls.members larger := by
  rw [Unbounded.members, bind_assoc]
  congr 1
  funext next
  cases next.kind <;> simp only [bind_assoc, pure_bind]

theorem postfixed_agrees :
    Agrees bound (fun _ => 1) (·.layer .postfixed) (postfixed parse) := by
  intro lexeme
  apply layer_called
  apply agrees_at_bind (primary_agrees goesBack lexeme)
  intro first
  apply extended_agrees (fun value calls => calls.members value) members_eq
  intro value lexeme
  apply agrees_seeing
  cases here : lexeme.kind
  case leftParen =>
    apply agrees_at_bind (((arguments_agree goesBack).within (Nat.sub_le _ _)) lexeme)
    intro list lexeme
    exact agrees_pure _ _ rfl
  case dot =>
    apply agrees_at_bind (steady_at_take (by rw [here]; decide) _)
    intro dot lexeme
    apply agrees_at_bind (steady_expect_name lexeme)
    intro member lexeme
    exact agrees_pure _ _ rfl
  all_goals exact agrees_pure _ _ rfl

theorem powered_agrees :
    Agrees bound (fun _ => 1) (·.layer .powered) (powered parse) := by
  intro lexeme
  apply layer_called
  apply agrees_at_bind (postfixed_agrees goesBack lexeme)
  intro base lexeme
  apply agrees_at_bind (steady_take_if _ _ (by decide) lexeme)
  intro sign lexeme
  cases sign with
  | none => exact agrees_pure _ _ rfl
  | some sign =>
      apply agrees_at_bind ((goesBack .signed).within (Nat.sub_le _ _) lexeme)
      intro exponent lexeme
      exact agrees_pure _ _ rfl

theorem signed_agrees : Agrees bound (fun _ => 1) (·.layer .signed) (signed parse) := by
  intro lexeme
  apply layer_called
  apply agrees_at_bind (steady_operator_among _ (by decide) lexeme)
  intro sign lexeme
  cases sign with
  | none => exact powered_agrees goesBack lexeme
  | some sign =>
      apply agrees_at_bind (goesBack .signed lexeme)
      intro operand lexeme
      exact agrees_pure _ _ rfl

omit goesBack in
theorem joined_eq (chain : Layer) (left : Tree) (calls : Calls) :
    Unbounded.joined calls chain left = (do
      match ← chain.operator.ended with
      | none => return none
      | some sign => return some (binary left sign (← calls.layer chain.tighter))) >>=
        fun answer =>
          match answer with
          | none => pure left
          | some larger => calls.joined chain larger := by
  rw [Unbounded.joined, bind_assoc]
  congr 1
  funext sign
  cases sign <;> simp only [bind_assoc, pure_bind]

omit goesBack in
theorem chain_agrees (layer : Layer) (operand : Parser Tree)
    (operators : Steady bound ifSome layer.operator)
    (operands : Agrees bound (fun _ => 1) (·.layer layer.tighter) operand) :
    Agrees bound (fun _ => 1)
      (fun calls => calls.layer layer.tighter >>= calls.joined layer)
      (chain layer.operator operand) := by
  intro lexeme
  apply agrees_at_bind (operands lexeme)
  intro first
  apply extended_agrees (fun left calls => calls.joined layer left) (joined_eq layer)
  intro left lexeme
  apply agrees_at_bind (operators.within (Nat.sub_le _ _) lexeme)
  intro sign lexeme
  cases sign with
  | none => exact agrees_pure _ _ rfl
  | some sign =>
      apply agrees_at_bind (operands.within ((Nat.sub_le _ _).trans (Nat.sub_le _ _)) lexeme)
      intro right lexeme
      exact agrees_pure _ _ rfl

theorem product_agrees :
    Agrees bound (fun _ => 1) (·.layer .product) (product parse) := by
  intro lexeme
  apply layer_called
  exact chain_agrees .product _ (steady_operator_among _ (by decide)) (signed_agrees goesBack) lexeme

theorem sum_agrees : Agrees bound (fun _ => 1) (·.layer .sum) (sum parse) := by
  intro lexeme
  apply layer_called
  exact chain_agrees .sum _ (steady_operator_among _ (by decide)) (product_agrees goesBack) lexeme

theorem comparison_agrees :
    Agrees bound (fun _ => 1) (·.layer .comparison) (comparison parse) := by
  intro lexeme
  apply layer_called
  exact chain_agrees .comparison _ steady_comparison_operator (sum_agrees goesBack) lexeme

theorem negation_agrees :
    Agrees bound (fun _ => 1) (·.layer .negation) (negation parse) := by
  intro lexeme
  apply layer_called
  apply agrees_at_bind (steady_operator_word _ lexeme)
  intro sign lexeme
  cases sign with
  | none => exact comparison_agrees goesBack lexeme
  | some sign =>
      apply agrees_at_bind (goesBack .negation lexeme)
      intro operand lexeme
      exact agrees_pure _ _ rfl

theorem conjunction_agrees :
    Agrees bound (fun _ => 1) (·.layer .conjunction) (conjunction parse) := by
  intro lexeme
  apply layer_called
  exact chain_agrees .conjunction _ (steady_operator_word _) (negation_agrees goesBack) lexeme

theorem disjunction_agrees :
    Agrees bound (fun _ => 1) (·.layer .disjunction) (disjunction parse) := by
  intro lexeme
  apply layer_called
  exact chain_agrees .disjunction _ (steady_operator_word _) (conjunction_agrees goesBack) lexeme

theorem layer_agrees (layer : Layer) :
    Agrees bound (fun _ => 1) (·.layer layer) (layer.parser parse) := by
  cases layer with
  | disjunction => exact disjunction_agrees goesBack
  | conjunction => exact conjunction_agrees goesBack
  | negation => exact negation_agrees goesBack
  | comparison => exact comparison_agrees goesBack
  | sum => exact sum_agrees goesBack
  | product => exact product_agrees goesBack
  | signed => exact signed_agrees goesBack
  | powered => exact powered_agrees goesBack
  | postfixed => exact postfixed_agrees goesBack
  | primary => exact primary_agrees goesBack

end Layers

/-- A parser fails where its first step does. -/
theorem bind_refuses {First Second : Type} {parser : Parser First} {error : ParseError}
    {stream : TokenStream} (refused : parser.run stream = .error error)
    (next : First → Parser Second) : (parser >>= next).run stream = .error error := by
  rw [StateT.run_bind, refused]
  rfl

/-- No expression starts at an end of file. -/
theorem layer_refuses_end (parse : Level → Parser Tree) (stream : TokenStream)
    (atEnd : stream.next.kind = .endOfFile) (layer : Layer) :
    (layer.parser parse).run stream = .error (refusal .expression stream.next) := by
  have noWord (word : String) : ¬(stream.next.kind = .name ∧ stream.next.text = word) := by
    rw [atEnd]
    exact fun isName => absurd isName.1 (by decide)
  have tokens : (primary parse).run stream = .error (refusal .expression stream.next) := by
    rw [primary, StateT.run_bind, peek_run, ok_bind, atEnd]
    exact unexpected_run .expression stream
  have calls : (postfixed parse).run stream = _ := bind_refuses tokens _
  have powers : (powered parse).run stream = _ := bind_refuses calls _
  have signs : (signed parse).run stream = .error (refusal .expression stream.next) := by
    rw [signed, StateT.run_bind, operator_among_run, atEnd, if_neg (by decide), ok_bind]
    exact powers
  have products : (product parse).run stream = _ := bind_refuses signs _
  have sums : (sum parse).run stream = _ := bind_refuses products _
  have comparisons : (comparison parse).run stream = _ := bind_refuses sums _
  have negations : (negation parse).run stream = .error (refusal .expression stream.next) := by
    rw [negation, StateT.run_bind, operator_word_run, if_neg (noWord "not"), ok_bind]
    exact comparisons
  have conjunctions : (conjunction parse).run stream = _ := bind_refuses negations _
  have disjunctions : (disjunction parse).run stream = _ := bind_refuses conjunctions _
  cases layer with
  | disjunction => exact disjunctions
  | conjunction => exact conjunctions
  | negation => exact negations
  | comparison => exact comparisons
  | sum => exact sums
  | product => exact products
  | signed => exact signs
  | powered => exact powers
  | postfixed => exact calls
  | primary => exact tokens

variable {bound : Nat}

theorem agrees_at_end {Result : Type} {least : Result → Nat} {wide : Calls → OpenParser Result}
    {parser other : Parser Result} (agrees : Agrees 1 least wide parser)
    (same : ∀ stream : TokenStream, stream.next.kind = .endOfFile →
      parser.run stream = other.run stream) : Agrees 1 least wide other := by
  intro lexeme first second alike here inside
  have none : second.ahead = 0 := by
    rw [← alike.ahead]
    exact Nat.lt_one_iff.mp inside
  rw [← same second (TokenStream.next_of_ahead none)]
  exact agrees lexeme first second alike here inside

/-- A depth of as many returns as there are lexemes ahead is enough. -/
theorem levels_agree (depth : Nat) (enough : bound ≤ depth + 1) (level : Level) :
    Agrees bound (fun _ => 1) (·.layer level.layer) (expressionUpTo depth level) := by
  induction depth generalizing bound level with
  | zero =>
      have least : Agrees 1 (fun _ => 1) (·.layer level.layer)
          (level.layer.parser (expressionUpTo 0)) :=
        layer_agrees (fun _ => agrees_nowhere _ _ _) level.layer
      have refuses : Agrees 1 (fun _ => 1) (·.layer level.layer)
          (unexpected .expression) := by
        apply agrees_at_end least
        intro stream atEnd
        rw [layer_refuses_end _ stream atEnd, unexpected_run]
      exact refuses.within enough
  | succ depth induction =>
      have closed : expressionUpTo (depth + 1) level = level.layer.parser (expressionUpTo depth) := by
        cases level <;> rfl
      rw [closed]
      exact layer_agrees (fun other => induction (Nat.sub_le_of_le_add enough) other) level.layer

theorem expression_agrees :
    Agrees bound (fun _ => 1) (·.layer .disjunction) expression := by
  apply agrees_remaining
  intro smaller count _ enough
  exact levels_agree count enough .expression

end ScriptWasm
