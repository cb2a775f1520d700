import ScriptWasm.Proofs.Program.Shapes
import ScriptWasm.Proofs.Tree.Expressions

/-!
The written form of an expression is accepted. What follows an expression must not bind as tightly
as the level that reads it, and then the level stops where the expression does.
-/

namespace ScriptWasm

set_option autoImplicit false

/-- The level at which a token goes on with the expression before it, or zero. -/
def TokenKind.binding : TokenKind → Nat
  | leftParen | dot => 9
  | power => 8
  | star | slash | floorDivide | percent => 6
  | plus | minus => 5
  | equal | notEqual | lessEqual | greaterEqual | less | greater | name => 4
  | _ => 0

def headKind : List Lexeme → TokenKind
  | [] => .endOfFile
  | first :: _ => first.kind

def Follows (level : Nat) (rest : List Lexeme) : Prop :=
  (headKind rest).binding < level

@[simp] theorem next_kind (rest : List Lexeme) (last : Span) :
    (TokenStream.mk rest last).next.kind = headKind rest := by
  cases rest <;> rfl

/-- A parser reads lexemes of some shapes and nothing more. -/
def Parser.Accepts {Result : Type} (source : List Char) (parser : Parser Result)
    (shapes : List Shape) (follows : List Lexeme → Prop) (good : Result → Prop) : Prop :=
  ∀ lexemes rest last, Spell source lexemes shapes → follows rest →
    ∃ result after, parser.run ⟨lexemes ++ rest, last⟩ = .ok (result, ⟨rest, after⟩) ∧ good result

/-- A tree that is read as an expression, up to notes. A name is known by the kind of its node. -/
structure Expr.DenotedBy (source : List Char) (expr : Expr) (tree : Tree) : Prop where
  built : ∃ found, Expr.ofTree source tree = .ok found ∧
    found.mapNotes Note.blank = expr.mapNotes Note.blank
  named : ∀ note word, expr = .name note word → tree.kind = .variableName

namespace Parser

/-- The parser of a level, where an expression that cannot be taken apart has level nine. -/
def atLevel (parse : Level → Parser Tree) : Nat → Parser Tree
  | 0 | 1 => disjunction parse
  | 2 => conjunction parse
  | 3 => negation parse
  | 4 => comparison parse
  | 5 => sum parse
  | 6 => product parse
  | 7 => signed parse
  | 8 => powered parse
  | _ => postfixed parse

def operatorAt : Nat → Parser (Option Tree)
  | 1 => operatorWord "or"
  | 2 => operatorWord "and"
  | 4 => comparisonOperator
  | 5 => operatorAmong [.plus, .minus]
  | _ => operatorAmong [.star, .slash, .floorDivide, .percent]

def joins (level : Nat) : Prop :=
  level = 1 ∨ level = 2 ∨ level = 4 ∨ level = 5 ∨ level = 6

def chainStep (operator : Parser (Option Tree)) (operand : Parser Tree) (left : Tree) :
    Parser (Option Tree) := do
  match ← operator with
  | none => return none
  | some sign => return some (binary left sign (← operand))

theorem chain_run (operator : Parser (Option Tree)) (operand : Parser Tree) (stream : TokenStream) :
    (chain operator operand).run stream =
      operand.run stream >>= fun (first, after) =>
        (extendUpTo (chainStep operator operand) (after.rest.length + 1) first).run after :=
  rfl

theorem at_level_chain (parse : Level → Parser Tree) (level : Nat) (joined : joins level) :
    atLevel parse level = chain (operatorAt level) (atLevel parse (level + 1)) := by
  rcases joined with rfl | rfl | rfl | rfl | rfl <;> rfl

theorem at_word_fails (word : String) (rest : List Lexeme) (last : Span)
    (noName : headKind rest ≠ .name) :
    (atWord word).run ⟨rest, last⟩ = .ok (false, ⟨rest, last⟩) := by
  rw [at_word_run]
  simp [noName]

/-- A level ends where what follows binds less tightly. -/
theorem operator_at_stops (level : Nat) (joined : joins level) (rest : List Lexeme) (last : Span)
    (follows : Follows level rest) :
    (operatorAt level).run ⟨rest, last⟩ = .ok (none, ⟨rest, last⟩) := by
  have known : ∀ kind, headKind rest = kind → kind.binding < level := by
    rintro kind rfl
    exact follows
  have absent : ∀ kinds : List TokenKind, (∀ kind ∈ kinds, level ≤ kind.binding) →
      headKind rest ∉ kinds := by
    intro kinds tight member
    have := tight _ member
    have := known _ rfl
    omega
  have noName : level ≤ 4 → headKind rest ≠ .name := by
    intro loose isName
    have := known .name isName
    rw [TokenKind.binding] at this
    omega
  rcases joined with rfl | rfl | rfl | rfl | rfl
  · change (operatorWord "or").run _ = _
    rw [operator_word_run, if_neg]
    rw [next_kind]
    exact fun isWord => noName (by omega) isWord.1
  · change (operatorWord "and").run _ = _
    rw [operator_word_run, if_neg]
    rw [next_kind]
    exact fun isWord => noName (by omega) isWord.1
  · change comparisonOperator.run _ = _
    have free : headKind rest ∉ [TokenKind.equal, .notEqual, .less, .greater, .lessEqual,
        .greaterEqual] := absent _ (by decide)
    rw [comparisonOperator, StateT.run_bind, peek_run, ok_bind, next_kind,
      if_neg (by simpa using free)]
    have wordless := fun word => at_word_fails word rest last (noName (by omega))
    simp only [StateT.run_bind, wordless, ok_bind, Bool.false_eq_true, if_false]
    rfl
  · change (operatorAmong _).run _ = _
    rw [operator_among_run, if_neg]
    rw [next_kind]
    exact absent _ (by decide)
  · change (operatorAmong _).run _ = _
    rw [operator_among_run, if_neg]
    rw [next_kind]
    exact absent _ (by decide)

/-- An operator is taken where it does not become one of two words. -/
theorem operator_at_takes (op : BinaryOp) (lexeme : Lexeme) (rest : List Lexeme) (last : Span)
    (looks : lexeme.kind = op.kind) (text : lexeme.text = op.symbol)
    (single : op = .is → ¬StartsWithNot rest) :
    (operatorAt op.level).run ⟨lexeme :: rest, last⟩ =
      .ok (some (.leaf .operator lexeme.span), ⟨rest, lexeme.span⟩) := by
  -- The levels of sums and products take their signs from a list, the level of comparisons has a
  -- parser of its own.
  have among : ∀ kinds : List TokenKind, op.kind ∈ kinds →
      (operatorAmong kinds).run ⟨lexeme :: rest, last⟩ =
        .ok (some (.leaf .operator lexeme.span), ⟨rest, lexeme.span⟩) := by
    intro kinds member
    rw [operator_among_run, if_pos (by rw [TokenStream.next_cons, looks]; exact member)]
    rfl
  have compared : op.kind ∈ [TokenKind.equal, .notEqual, .less, .greater, .lessEqual,
      .greaterEqual] → comparisonOperator.run ⟨lexeme :: rest, last⟩ =
        .ok (some (.leaf .operator lexeme.span), ⟨rest, lexeme.span⟩) := by
    intro member
    rw [← looks] at member
    rw [comparisonOperator, StateT.run_bind, peek_run, ok_bind, TokenStream.next_cons,
      if_pos (List.contains_iff_mem.mpr member), StateT.run_bind, take_run, ok_bind]
    rfl
  cases op with
  | add => exact among _ (by decide)
  | sub => exact among _ (by decide)
  | mul => exact among _ (by decide)
  | floorDivide => exact among _ (by decide)
  | modulo => exact among _ (by decide)
  | equal => exact compared (by decide)
  | notEqual => exact compared (by decide)
  | lessEqual => exact compared (by decide)
  | greaterEqual => exact compared (by decide)
  | less => exact compared (by decide)
  | greater => exact compared (by decide)
  | is =>
      change lexeme.kind = .name at looks
      change lexeme.text = "is" at text
      change comparisonOperator.run _ = _
      have alone : ¬((TokenStream.mk rest lexeme.span).next.kind = .name ∧
          (TokenStream.mk rest lexeme.span).next.text = "not") :=
        fun isNot => single rfl ((starts_with_not_iff ⟨rest, lexeme.span⟩).mpr isNot)
      rw [comparisonOperator, StateT.run_bind, peek_run, ok_bind, TokenStream.next_cons,
        if_neg (by rw [looks]; decide)]
      simp only [StateT.run_bind, at_word_run, ok_bind, TokenStream.next_cons, looks, text]
      rw [if_neg (by decide)]
      simp only [StateT.run_bind, at_word_run, ok_bind, TokenStream.next_cons, looks, text]
      rw [if_pos (by decide)]
      simp only [StateT.run_bind, take_run, at_word_run, ok_bind, TokenStream.next_cons,
        TokenStream.past_cons]
      rw [if_neg (by simpa using alone)]
      rfl

/-- A level has read an expression and may go on with its operators. -/
def Continued (source : List Char) (parse : Level → Parser Tree) (level : Nat) (expr : Expr) :
    Prop :=
  ∀ lexemes rest last, Spell source lexemes expr.shapes → Follows (level + 1) rest →
    ∃ tree after count, (atLevel parse level).run ⟨lexemes ++ rest, last⟩ =
        (extendUpTo (chainStep (operatorAt level) (atLevel parse (level + 1))) count tree).run
          ⟨rest, after⟩ ∧
      rest.length < count ∧ expr.DenotedBy source tree

def Accepted (source : List Char) (parse : Level → Parser Tree) (level : Nat) (expr : Expr) : Prop :=
  Accepts source (atLevel parse level) expr.shapes (Follows level) (expr.DenotedBy source)

section Levels

variable (source : List Char) (parse : Level → Parser Tree) (expr : Expr)

theorem continued_of_accepted (level : Nat) (joined : joins level)
    (accepted : Accepted source parse (level + 1) expr) : Continued source parse level expr := by
  intro lexemes rest last spell follows
  obtain ⟨tree, after, run, denoted⟩ := accepted lexemes rest last spell follows
  refine ⟨tree, after, rest.length + 1, ?_, Nat.lt_succ_self _, denoted⟩
  rw [at_level_chain parse level joined, chain_run, run]
  rfl

theorem accepted_of_continued (level : Nat) (joined : joins level)
    (continued : Continued source parse level expr) : Accepted source parse level expr := by
  intro lexemes rest last spell follows
  obtain ⟨tree, after, count, run, enough, denoted⟩ := continued lexemes rest last spell
    (Nat.lt_succ_of_lt follows)
  refine ⟨tree, after, ?_, denoted⟩
  obtain ⟨more, rfl⟩ : ∃ more, count = more + 1 := ⟨count - 1, by omega⟩
  rw [run, extendUpTo, StateT.run_bind, chainStep, StateT.run_bind,
    operator_at_stops level joined rest after follows]
  rfl

theorem accepted_at_join (level : Nat) (joined : joins level)
    (accepted : Accepted source parse (level + 1) expr) : Accepted source parse level expr :=
  accepted_of_continued source parse expr level joined
    (continued_of_accepted source parse expr level joined accepted)

/-- The word `not` does not come first in lexemes of an expression that does not start with it. -/
theorem not_is_not_first (readable : expr.Readable) (tight : 4 ≤ expr.level)
    (leading : expr.leadingNot = false) (lexemes rest : List Lexeme)
    (spell : Spell source lexemes expr.shapes) : ¬StartsWithNot (lexemes ++ rest) := by
  obtain ⟨kind, text, more, shape, _, names, _⟩ := expr.first_shape readable
  rw [shape] at spell
  obtain ⟨first, others, rfl, isKind, isText, _, _⟩ := spell_cons source lexemes kind text more spell
  rintro ⟨isName, isNot⟩
  rw [isKind] at isName
  rw [isText] at isNot
  rw [(names tight).mp ⟨isName, isNot⟩] at leading
  cases leading

theorem accepted_at_powered (accepted : Accepted source parse 9 expr) :
    Accepted source parse 8 expr := by
  intro lexemes rest last spell follows
  obtain ⟨tree, after, run, denoted⟩ := accepted lexemes rest last spell (Nat.lt_succ_of_lt follows)
  refine ⟨tree, after, ?_, denoted⟩
  have noPower : headKind rest ≠ .power := by
    intro isPower
    rw [Follows, isPower] at follows
    exact absurd follows (by decide)
  change (powered parse).run _ = _
  change (postfixed parse).run _ = _ at run
  rw [powered, StateT.run_bind, run, ok_bind, StateT.run_bind, take_if_run,
    if_neg (by rw [next_kind]; exact noPower)]
  rfl

theorem accepted_at_signed (readable : expr.Readable) (whole : expr.level = 9)
    (accepted : Accepted source parse 8 expr) : Accepted source parse 7 expr := by
  intro lexemes rest last spell follows
  obtain ⟨tree, after, run, denoted⟩ := accepted lexemes rest last spell (Nat.lt_succ_of_lt follows)
  refine ⟨tree, after, ?_, denoted⟩
  obtain ⟨kind, text, more, shape, starts, _, noMinus⟩ := expr.first_shape readable
  rw [shape] at spell
  obtain ⟨first, others, rfl, isKind, _⟩ := spell_cons source lexemes kind text more spell
  have noSign : first.kind ∉ [TokenKind.plus, .minus] := by
    rw [isKind]
    intro member
    simp only [List.mem_cons, List.not_mem_nil, or_false] at member
    rcases member with rfl | rfl
    · cases starts
    · exact noMinus whole rfl
  change (signed parse).run _ = _
  rw [signed, StateT.run_bind, operator_among_run,
    if_neg (by rw [List.cons_append, TokenStream.next_cons]; exact noSign)]
  exact run

theorem accepted_at_negation (readable : expr.Readable) (tight : 4 ≤ expr.level)
    (leading : expr.leadingNot = false) (accepted : Accepted source parse 4 expr) :
    Accepted source parse 3 expr := by
  intro lexemes rest last spell follows
  obtain ⟨tree, after, run, denoted⟩ := accepted lexemes rest last spell (Nat.lt_succ_of_lt follows)
  refine ⟨tree, after, ?_, denoted⟩
  have noNot := not_is_not_first source expr readable tight leading lexemes rest spell
  change (negation parse).run _ = _
  rw [negation, StateT.run_bind, operator_word_run,
    if_neg (fun isNot => noNot ((starts_with_not_iff ⟨lexemes ++ rest, last⟩).mpr isNot))]
  exact run

/-- An expression is read at its own level. -/
structure Reached : Prop where
  joined : joins expr.level → Continued source parse expr.level expr
  alone : ¬joins expr.level → Accepted source parse expr.level expr

end Levels

theorem level_cases (expr : Expr) : expr.level = 3 ∨ expr.level = 4 ∨ expr.level = 5 ∨
    expr.level = 6 ∨ expr.level = 7 ∨ expr.level = 9 := by
  cases expr with
  | binary note op left right => cases op <;> simp [Expr.level, BinaryOp.level]
  | unary note op operand => cases op <;> simp [Expr.level]
  | _ => simp [Expr.level]

section Levels

variable {source : List Char} {parse : Level → Parser Tree} {expr : Expr}

theorem Reached.accepted (reached : Reached source parse expr) :
    Accepted source parse expr.level expr := by
  by_cases joined : joins expr.level
  · exact accepted_of_continued source parse expr expr.level joined (reached.joined joined)
  · exact reached.alone joined

/-- A level reads every expression that binds at least as tightly, except that where a negation can
start no expression may start with the name `not`. -/
theorem Reached.accepted_at (reached : Reached source parse expr) (readable : expr.Readable)
    (level : Nat) (positive : 0 < level) (below : level ≤ expr.level)
    (whole : level ≤ 3 → expr.leadingNot = false) : Accepted source parse level expr := by
  obtain ⟨steps, sum⟩ := Nat.exists_eq_add_of_le below
  induction steps generalizing level with
  | zero =>
      rw [Nat.add_zero] at sum
      rw [← sum]
      exact reached.accepted
  | succ steps induction =>
      have next := induction (level + 1) (by omega) (by omega) (fun low => whole (by omega))
        (by omega)
      have levels := level_cases expr
      have small : level ≤ 8 := by omega
      have cases : joins level ∨ level = 3 ∨ level = 7 ∨ level = 8 := by
        unfold joins
        omega
      rcases cases with joined | rfl | rfl | rfl
      · exact accepted_at_join source parse expr level joined next
      · exact accepted_at_negation source parse expr readable (by omega) (whole (by omega)) next
      · exact accepted_at_signed source parse expr readable (by omega) next
      · exact accepted_at_powered source parse expr next

theorem Reached.continued_at (reached : Reached source parse expr) (readable : expr.Readable)
    (level : Nat) (joined : joins level) (tight : 4 ≤ level) (below : level ≤ expr.level) :
    Continued source parse level expr := by
  by_cases same : level = expr.level
  · rw [same] at joined ⊢
    exact reached.joined joined
  · apply continued_of_accepted source parse expr level joined
    exact reached.accepted_at readable (level + 1) (by omega) (by omega) (by omega)

theorem op_joins (op : BinaryOp) : joins op.level ∧ 4 ≤ op.level ∧ op.level ≤ 6 := by
  cases op <;> simp [joins, BinaryOp.level]

theorem binary_op_reads_back (op : BinaryOp) :
    BinaryOp.ofSymbol? (joinWords op.symbol) = some op := by
  cases op <;> decide +kernel

theorem binary_continued (note : Note) (op : BinaryOp) (left right : Expr)
    (continued : Continued source parse op.level left)
    (accepted : Accepted source parse (op.level + 1) right)
    (single : op = .is → ∀ lexemes rest, Spell source lexemes right.shapes →
      ¬StartsWithNot (lexemes ++ rest)) :
    Continued source parse op.level (.binary note op left right) := by
  intro lexemes rest last spell follows
  obtain ⟨before, later, rfl, spellLeft, spellLater⟩ := spell_append source lexemes _ _ spell
  obtain ⟨sign, after, rfl, isKind, isText, sound, spellRight⟩ :=
    spell_cons source later op.kind op.symbol _ spellLater
  -- The operator ends every operand of a tighter level.
  have followsSign : Follows (op.level + 1) (sign :: (after ++ rest)) := by
    rw [Follows, headKind, isKind]
    cases op <;> decide
  obtain ⟨tree, place, count, run, enough, denotedLeft⟩ := continued before
    (sign :: (after ++ rest)) last spellLeft followsSign
  obtain ⟨more, rfl⟩ : ∃ more, count = more + 1 := ⟨count - 1, by omega⟩
  obtain ⟨second, final, runRight, denotedRight⟩ := accepted after rest sign.span spellRight follows
  have taken := operator_at_takes op sign (after ++ rest) place isKind isText
    fun isOp => single isOp after rest spellRight
  refine ⟨binary tree (.leaf .operator sign.span) second, final, more, ?_, ?_, ?_⟩
  · rw [List.append_assoc, List.cons_append, run, extendUpTo, StateT.run_bind, chainStep,
      StateT.run_bind, taken, ok_bind]
    simp only [StateT.run_bind, runRight, ok_bind]
    rfl
  · rw [List.length_cons, List.length_append] at enough
    omega
  · obtain ⟨first, builtFirst, sameFirst⟩ := denotedLeft.built
    obtain ⟨other, builtOther, sameOther⟩ := denotedRight.built
    have builtOp : Expr.binaryOpOfTree source (.leaf .operator sign.span) = .ok op := by
      rw [binary_op_of_tree_succeeds_iff, text_of_leaf source .operator sign sound, isText]
      exact ⟨rfl, binary_op_reads_back op⟩
    refine ⟨⟨_, (of_binary_succeeds_iff source _ _ _ _).mpr
      ⟨first, op, other, builtFirst, builtOp, builtOther, rfl⟩, ?_⟩,
      fun _ _ impossible => by cases impossible⟩
    rw [Expr.mapNotes, Expr.mapNotes, sameFirst, sameOther]
    rfl

end Levels

end Parser

end ScriptWasm
