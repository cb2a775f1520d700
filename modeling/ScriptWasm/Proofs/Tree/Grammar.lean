import ScriptWasm.Tree.Expression

/-!
The grammar of expressions. It has ten layers, from the loosest operators to the tightest, and says
which trees stand on which lexemes, apart from any way of reading them.
-/

namespace ScriptWasm

set_option autoImplicit false

def Lexeme.IsWord (word : String) (lexeme : Lexeme) : Prop :=
  lexeme.kind = .name ∧ lexeme.text = word

instance (word : String) (lexeme : Lexeme) : Decidable (lexeme.IsWord word) :=
  inferInstanceAs (Decidable (_ ∧ _))

/-- The names that are operators where an operator can stand. -/
def operatorWords : List String :=
  ["or", "and", "not", "is", "in"]

def Lexeme.TwoWords (first second : Lexeme) : Prop :=
  (first.IsWord "is" ∧ second.IsWord "not") ∨ (first.IsWord "not" ∧ second.IsWord "in")

def TokenKind.operandKind? : TokenKind → Option NodeKind
  | .name => some .variableName
  | .number => some .number
  | .string => some .string
  | .trueWord | .falseWord => some .boolean
  | .noneWord => some .noneWord
  | _ => none

instance (first second : Lexeme) : Decidable (first.TwoWords second) :=
  inferInstanceAs (Decidable (_ ∨ _))

inductive Layer where
  | disjunction
  | conjunction
  | negation
  | comparison
  | sum
  | product
  | signed
  | powered
  | postfixed
  | primary
deriving DecidableEq

namespace Layer

def tighter : Layer → Layer
  | disjunction => conjunction
  | conjunction => negation
  | negation => comparison
  | comparison => sum
  | sum => product
  | product => signed
  | signed => powered
  | powered => postfixed
  | postfixed | primary => primary

def number : Layer → Nat
  | disjunction => 1
  | conjunction => 2
  | negation => 3
  | comparison => 4
  | sum => 5
  | product => 6
  | signed => 7
  | powered => 8
  | postfixed => 9
  | primary => 10

theorem number_le_tighter (layer : Layer) : layer.number ≤ layer.tighter.number := by
  cases layer <;> decide

theorem number_positive (layer : Layer) : 0 < layer.number := by
  cases layer <;> decide

/-- The operators that join two operands of a layer, and the lexemes that they stand on. -/
inductive Joins : Layer → Tree → List Lexeme → Prop where
  | or (word : Lexeme) (isOr : word.IsWord "or") :
      Joins disjunction (.leaf .operator word.span) [word]
  | and (word : Lexeme) (isAnd : word.IsWord "and") :
      Joins conjunction (.leaf .operator word.span) [word]
  | compare (sign : Lexeme)
      (compares : sign.kind ∈
        [.equal, .notEqual, .less, .greater, .lessEqual, .greaterEqual]) :
      Joins comparison (.leaf .operator sign.span) [sign]
  | word (word : Lexeme) (known : word.IsWord "is" ∨ word.IsWord "in") :
      Joins comparison (.leaf .operator word.span) [word]
  | words (first second : Lexeme) (two : first.TwoWords second) :
      Joins comparison (.leaf .operator (first.span.through second.span)) [first, second]
  | add (sign : Lexeme) (adds : sign.kind ∈ [.plus, .minus]) :
      Joins sum (.leaf .operator sign.span) [sign]
  | multiply (sign : Lexeme)
      (multiplies : sign.kind ∈ [.star, .slash, .floorDivide, .percent]) :
      Joins product (.leaf .operator sign.span) [sign]

/-- The lexemes that a tree of a layer can start with, where the given names can be variables. -/
def Starts (names : Lexeme → Prop) (layer : Layer) (first : Lexeme) : Prop :=
  (first.IsWord "not" ∧ layer.number ≤ 3) ∨ (first.kind ∈ [.plus, .minus] ∧ layer.number ≤ 7) ∨
    (first.kind = .name ∧ names first) ∨
    first.kind ∈ [.number, .string, .trueWord, .falseWord, .noneWord, .leftParen]

end Layer

/-- Items with commas between them, where a comma may also follow the last: the items with their
lexemes, and the parts and the lexemes of the whole. -/
inductive CommaList : List (List Tree × List Lexeme) → List Tree → List Lexeme → Prop where
  | none : CommaList [] [] []
  | last (item : List Tree) (lexemes : List Lexeme) : CommaList [(item, lexemes)] item lexemes
  | more (item : List Tree) (lexemes : List Lexeme) (comma : Lexeme)
      (items : List (List Tree × List Lexeme)) (parts : List Tree) (others : List Lexeme)
      (isComma : comma.kind = .comma) (rest : CommaList items parts others) :
      CommaList ((item, lexemes) :: items)
        (item ++ .leaf .punctuation comma.span :: parts) (lexemes ++ comma :: others)

/-- The trees of a layer on their lexemes, where the given names can be variables. -/
inductive Grammar (names : Lexeme → Prop) : Layer → Tree → List Lexeme → Prop where
  | tighter (layer : Layer) (tree : Tree) (lexemes : List Lexeme)
      (whole : Grammar names layer.tighter tree lexemes) : Grammar names layer tree lexemes
  | joined (layer : Layer) (left sign right : Tree) (before signs after : List Lexeme)
      (first : Grammar names layer left before) (joins : layer.Joins sign signs)
      (second : Grammar names layer.tighter right after) :
      Grammar names layer (Parser.binary left sign right) (before ++ signs ++ after)
  | negated (word : Lexeme) (operand : Tree) (lexemes : List Lexeme) (isNot : word.IsWord "not")
      (inner : Grammar names .negation operand lexemes) :
      Grammar names .negation (.branch .unaryExpression [.leaf .operator word.span, operand])
        (word :: lexemes)
  | signed (sign : Lexeme) (operand : Tree) (lexemes : List Lexeme)
      (isSign : sign.kind ∈ [.plus, .minus]) (inner : Grammar names .signed operand lexemes) :
      Grammar names .signed (.branch .unaryExpression [.leaf .operator sign.span, operand])
        (sign :: lexemes)
  | raised (base exponent : Tree) (before : List Lexeme) (sign : Lexeme) (after : List Lexeme)
      (first : Grammar names .postfixed base before) (isPower : sign.kind = .power)
      (second : Grammar names .signed exponent after) :
      Grammar names .powered (Parser.binary base (.leaf .operator sign.span) exponent)
        (before ++ sign :: after)
  | called (callee : Tree) (before : List Lexeme) (opening : Lexeme)
      (items : List (Tree × List Lexeme)) (parts : List Tree) (inside : List Lexeme)
      (closing : Lexeme) (first : Grammar names .postfixed callee before)
      (opens : opening.kind = .leftParen) (closes : closing.kind = .rightParen)
      (listed : CommaList (items.map fun item => ([item.1], item.2)) parts inside)
      (arguments : ∀ item ∈ items, Grammar names .disjunction item.1 item.2) :
      Grammar names .postfixed
        (.branch .callExpression [callee, .branch .argList
          (.leaf .punctuation opening.span :: parts ++ [.leaf .punctuation closing.span])])
        (before ++ opening :: inside ++ [closing])
  | member (value : Tree) (before : List Lexeme) (dot name : Lexeme)
      (first : Grammar names .postfixed value before) (isDot : dot.kind = .dot)
      (isName : name.kind = .name) :
      Grammar names .postfixed
        (.branch .memberExpression
          [value, .leaf .punctuation dot.span, .leaf .variableName name.span])
        (before ++ [dot, name])
  | name (word : Lexeme) (isName : word.kind = .name) (isVariable : names word) :
      Grammar names .primary (.leaf .variableName word.span) [word]
  | number (digits : Lexeme) (isNumber : digits.kind = .number) :
      Grammar names .primary (.leaf .number digits.span) [digits]
  | string (quoted : Lexeme) (isString : quoted.kind = .string) :
      Grammar names .primary (.leaf .string quoted.span) [quoted]
  | boolean (word : Lexeme) (isBoolean : word.kind ∈ [.trueWord, .falseWord]) :
      Grammar names .primary (.leaf .boolean word.span) [word]
  | noneWord (word : Lexeme) (isNone : word.kind = .noneWord) :
      Grammar names .primary (.leaf .noneWord word.span) [word]
  | parenthesized (opening : Lexeme) (inner : Tree) (inside : List Lexeme) (closing : Lexeme)
      (opens : opening.kind = .leftParen) (closes : closing.kind = .rightParen)
      (whole : Grammar names .disjunction inner inside) :
      Grammar names .primary
        (.branch .parenthesizedExpression
          [.leaf .punctuation opening.span, inner, .leaf .punctuation closing.span])
        (opening :: inside ++ [closing])

theorem starts_looser (names : Lexeme → Prop) (layer tighter : Layer) (first : Lexeme)
    (looser : layer.number ≤ tighter.number) (starts : tighter.Starts names first) :
    layer.Starts names first := by
  rcases starts with ⟨isNot, low⟩ | ⟨isSign, low⟩ | other
  · exact Or.inl ⟨isNot, by omega⟩
  · exact Or.inr (Or.inl ⟨isSign, by omega⟩)
  · exact Or.inr (Or.inr other)

/-- Every tree has lexemes, and starts as its layer does. -/
theorem grammar_starts (names : Lexeme → Prop) (layer : Layer) (tree : Tree)
    (lexemes : List Lexeme) (whole : Grammar names layer tree lexemes) :
    ∃ first more, lexemes = first :: more ∧ layer.Starts names first := by
  induction whole with
  | tighter layer tree lexemes _ induction =>
      obtain ⟨first, more, parts, starts⟩ := induction
      exact ⟨first, more, parts, starts_looser names layer _ first layer.number_le_tighter starts⟩
  | joined layer left sign right before signs after _ _ _ induction _ =>
      obtain ⟨first, more, rfl, starts⟩ := induction
      exact ⟨first, more ++ signs ++ after, by simp, starts⟩
  | negated word operand lexemes isNot _ _ =>
      exact ⟨word, lexemes, rfl, Or.inl ⟨isNot, Nat.le_refl 3⟩⟩
  | signed sign operand lexemes isSign _ _ =>
      exact ⟨sign, lexemes, rfl, Or.inr (Or.inl ⟨isSign, Nat.le_refl 7⟩)⟩
  | raised base exponent before sign after _ _ _ induction _ =>
      obtain ⟨first, more, rfl, starts⟩ := induction
      exact ⟨first, more ++ sign :: after, by simp,
        starts_looser names .powered .postfixed first (by decide) starts⟩
  | called callee before opening items parts inside closing _ _ _ _ _ induction _ =>
      obtain ⟨first, more, rfl, starts⟩ := induction
      exact ⟨first, more ++ opening :: inside ++ [closing], by simp, starts⟩
  | member value before dot name _ _ _ induction =>
      obtain ⟨first, more, rfl, starts⟩ := induction
      exact ⟨first, more ++ [dot, name], by simp, starts⟩
  | name word isName isVariable =>
      exact ⟨word, [], rfl, Or.inr (Or.inr (Or.inl ⟨isName, isVariable⟩))⟩
  | number digits isNumber => exact ⟨digits, [], rfl, by simp [Layer.Starts, isNumber]⟩
  | string quoted isString => exact ⟨quoted, [], rfl, by simp [Layer.Starts, isString]⟩
  | boolean word isBoolean =>
      refine ⟨word, [], rfl, Or.inr (Or.inr (Or.inr ?_))⟩
      simp only [List.mem_cons, List.not_mem_nil, or_false] at isBoolean
      rcases isBoolean with isTrue | isFalse
      · simp [isTrue]
      · simp [isFalse]
  | noneWord word isNone => exact ⟨word, [], rfl, by simp [Layer.Starts, isNone]⟩
  | parenthesized opening inner inside closing opens _ _ _ =>
      exact ⟨opening, inside ++ [closing], rfl, by simp [Layer.Starts, opens]⟩

/-- The parts of a list are those of its items and commas. -/
theorem Tree.comma_list_parts {items : List (List Tree × List Lexeme)} {parts : List Tree}
    {lexemes : List Lexeme} (listed : CommaList items parts lexemes) (good : Tree → Prop)
    (commas : ∀ span, good (.leaf .punctuation span))
    (inner : ∀ item ∈ items, ∀ part ∈ item.1, good part) : ∀ part ∈ parts, good part := by
  induction listed with
  | none => exact List.forall_mem_nil _
  | last item lexemes => exact inner (item, lexemes) (by simp)
  | more item lexemes comma items parts others isComma rest induction =>
      intro part member
      rcases List.mem_append.mp member with here | later
      · exact inner (item, lexemes) (by simp) part here
      · rcases List.mem_cons.mp later with rfl | later
        · exact commas _
        · exact induction (fun item there => inner item (by simp [there])) part later

def NodeKind.ofExpressionLeaves : List NodeKind :=
  [.operator, .punctuation, .variableName, .number, .string, .boolean, .noneWord]

def NodeKind.ofExpressionBranches : List NodeKind :=
  [.binaryExpression, .unaryExpression, .callExpression, .argList, .memberExpression,
   .parenthesizedExpression]

/-- What holds of leaves, and of nodes with parts of which it holds, holds of every expression. -/
theorem grammar_holds (good : Tree → Prop)
    (leaf : ∀ kind ∈ NodeKind.ofExpressionLeaves, ∀ span, good (.leaf kind span))
    (branch : ∀ kind ∈ NodeKind.ofExpressionBranches, ∀ parts : List Tree,
      (∀ part ∈ parts, good part) → good (.branch kind parts))
    {names : Lexeme → Prop} {layer : Layer} {tree : Tree} {lexemes : List Lexeme}
    (whole : Grammar names layer tree lexemes) : good tree := by
  have mark := leaf .punctuation (by decide)
  have sign := leaf .operator (by decide)
  -- The induction is on the derivation. Punctuation and operators are leaves, of which it holds.
  induction whole with
  | tighter layer tree lexemes _ induction => exact induction
  | joined layer left operator right before signs after _ joins _ first second =>
      have joint : good operator := by cases joins <;> exact sign _
      exact branch .binaryExpression (by decide) _ (by simp [first, joint, second])
  | negated | signed =>
      rename_i induction
      exact branch .unaryExpression (by decide) _ (by simp [induction, sign])
  | raised base exponent before power after _ _ _ first second =>
      exact branch .binaryExpression (by decide) _ (by simp [first, sign, second])
  | called callee before opening items parts inside closing _ _ _ listed _ first arguments =>
      have inner := Tree.comma_list_parts listed good mark (by
        intro entry member part there
        obtain ⟨item, known, rfl⟩ := List.mem_map.mp member
        rw [List.mem_singleton.mp there]
        exact arguments item known)
      have enclosed : ∀ part ∈ Tree.leaf .punctuation opening.span :: parts ++
          [.leaf .punctuation closing.span], good part := by
        intro part member
        simp only [List.cons_append, List.mem_cons, List.mem_append, List.not_mem_nil, or_false]
          at member
        rcases member with rfl | inside | rfl
        · exact mark _
        · exact inner part inside
        · exact mark _
      refine branch .callExpression (by decide) _ fun part member => ?_
      simp only [List.mem_cons, List.not_mem_nil, or_false] at member
      rcases member with rfl | rfl
      · exact first
      · exact branch .argList (by decide) _ enclosed
  | member value before dot name _ _ _ induction =>
      have word := leaf .variableName (by decide) name.span
      exact branch .memberExpression (by decide) _ (by simp [induction, mark, word])
  | name | number | string | boolean | noneWord => exact leaf _ (by decide) _
  | parenthesized opening inner inside closing _ _ _ induction =>
      exact branch .parenthesizedExpression (by decide) _ (by simp [induction, mark])

end ScriptWasm
