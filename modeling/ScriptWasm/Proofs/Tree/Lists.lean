import ScriptWasm.Proofs.Tree.Acceptance

/-!
Lists in parentheses are accepted when their items are. What is read from the parts of such a list
is read from its items in order.
-/

namespace ScriptWasm

set_option autoImplicit false

structure Tree.Mark (source : List Char) (text : String) (tree : Tree) : Prop where
  kind : tree.kind = .punctuation
  text : tree.text source = text
  alone : tree.children = []

theorem mark_of_lexeme (source : List Char) (lexeme : Lexeme) (text : String)
    (sound : lexeme.Sound source) (same : lexeme.text = text) :
    (Tree.leaf .punctuation lexeme.span).Mark source text where
  kind := rfl
  text := by rw [text_of_leaf source .punctuation lexeme sound, same]
  alone := rfl

/-- The parts of a list: the parts of its items with commas between them. -/
inductive Listed {Value : Type} (source : List Char) (good : Value → List Tree → Prop) :
    List Value → List Tree → Prop where
  | nil : Listed source good [] []
  | one (value : Value) (parts : List Tree) (item : good value parts) :
      Listed source good [value] parts
  | more (value next : Value) (values : List Value) (parts others : List Tree) (comma : Tree)
      (item : good value parts) (mark : comma.Mark source ",")
      (rest : Listed source good (next :: values) others) :
      Listed source good (value :: next :: values) (parts ++ comma :: others)

def ItemFollows (rest : List Lexeme) : Prop :=
  headKind rest = .comma ∨ headKind rest = .rightParen

namespace Parser

section Lists

variable {Value : Type} {source : List Char} {item : Parser (List Tree)}
variable {shapes : Value → List Shape} {good : Value → List Tree → Prop}

def ItemStarts (shapes : List Shape) : Prop :=
  ∃ kind text more, shapes = (kind, text) :: more ∧ kind ≠ .rightParen

theorem separated_length (values : List Value) (starts : ∀ value ∈ values, ItemStarts (shapes value)) :
    values.length ≤ (separated (values.map shapes)).length := by
  induction values with
  | nil => exact Nat.le_refl 0
  | cons value rest induction =>
      obtain ⟨kind, text, more, shape, _⟩ := starts value (by simp)
      have later := induction fun other member => starts other (by simp [member])
      cases rest with
      | nil => simp [separated, shape]
      | cons next others =>
          simp only [List.map_cons] at later ⊢
          rw [separated, shape]
          simp only [List.length_append, List.length_cons] at later ⊢
          omega

theorem listed_accepts (values : List Value) (count : Nat) (enough : values.length ≤ count)
    (accepts : ∀ value ∈ values, Accepts source item (shapes value) ItemFollows (good value))
    (starts : ∀ value ∈ values, ItemStarts (shapes value)) :
    Accepts source (parenthesized.listed item count) (separated (values.map shapes))
      (headKind · = .rightParen) (Listed source good values) := by
  -- Every item takes one off the count, which is therefore enough for all of them.
  induction values generalizing count with
  | nil =>
      intro lexemes rest last spell follows
      rw [spell_nil source lexemes spell, List.nil_append]
      refine ⟨[], last, ?_, .nil⟩
      cases count with
      | zero => rfl
      | succ count =>
          rw [parenthesized.listed, StateT.run_bind, peek_run, ok_bind,
            if_pos (by rw [next_kind]; exact follows)]
          rfl
  | cons value values induction =>
      intro lexemes rest last spell follows
      obtain ⟨kind, text, more, shape, notClosing⟩ := starts value (by simp)
      obtain ⟨count, rfl⟩ : ∃ smaller, count = smaller + 1 := by
        rw [List.length_cons] at enough
        exact ⟨count - 1, by omega⟩
      -- An item never starts with the parenthesis that would end the list.
      have open_ : ∀ after, Spell source after (shapes value) → ∀ others place,
          (TokenStream.mk (after ++ others) place).next.kind ≠ .rightParen := by
        intro after spellItem others place
        rw [shape] at spellItem
        obtain ⟨first, _, rfl, isKind, _⟩ := spell_cons source after kind text more spellItem
        rw [List.cons_append, TokenStream.next_cons, isKind]
        exact notClosing
      cases values with
      | nil =>
          rw [List.map_singleton, separated] at spell
          obtain ⟨parts, after, run, found⟩ := accepts value (by simp) lexemes rest last spell
            (Or.inr follows)
          refine ⟨parts, after, ?_, .one value parts found⟩
          rw [parenthesized.listed, StateT.run_bind, peek_run, ok_bind,
            if_neg (open_ lexemes spell rest last), StateT.run_bind, run, ok_bind, StateT.run_bind,
            take_if_run, if_neg (by rw [next_kind, follows]; decide)]
          rfl
      | cons next others =>
          rw [List.map_cons, List.map_cons, separated] at spell
          obtain ⟨before, later, rfl, spellItem, spellLater⟩ := spell_append source lexemes _ _ spell
          obtain ⟨comma, final, rfl, isComma, isText, sound, spellRest⟩ :=
            spell_cons source later .comma "," _ spellLater
          obtain ⟨parts, place, run, found⟩ := accepts value (by simp) before
            (comma :: (final ++ rest)) last spellItem (Or.inl isComma)
          obtain ⟨remaining, after, runRest, listed⟩ := induction count
            (by simpa using enough)
            (fun other member => accepts other (by simp [member]))
            (fun other member => starts other (by simp [member])) final rest comma.span spellRest
            follows
          refine ⟨parts ++ .leaf .punctuation comma.span :: remaining, after, ?_,
            .more value next others parts remaining _ found
              (mark_of_lexeme source comma "," sound isText) listed⟩
          rw [List.append_assoc, List.cons_append, parenthesized.listed, StateT.run_bind, peek_run,
            ok_bind, if_neg (open_ before spellItem _ last), StateT.run_bind, run, ok_bind,
            StateT.run_bind, take_if_run, if_pos (by rw [TokenStream.next_cons, isComma]), ok_bind]
          simp only [StateT.run_bind, TokenStream.past_cons, TokenStream.next_cons, runRest, ok_bind]
          rfl

theorem parenthesized_accepts (kind : NodeKind) (values : List Value)
    (accepts : ∀ value ∈ values, Accepts source item (shapes value) ItemFollows (good value))
    (starts : ∀ value ∈ values, ItemStarts (shapes value)) :
    Accepts source (parenthesized kind item)
      (TokenKind.leftParen.shape :: separated (values.map shapes) ++ [TokenKind.rightParen.shape])
      (fun _ => True) fun tree => ∃ opening parts closing,
        tree = .branch kind (opening :: parts ++ [closing]) ∧ opening.Mark source "(" ∧
          closing.Mark source ")" ∧ Listed source good values parts := by
  intro lexemes rest last spell _
  rw [List.cons_append] at spell
  obtain ⟨opening, inside, rfl, isOpening, openText, soundOpening, spellInside⟩ :=
    spell_cons source lexemes .leftParen "(" _ spell
  obtain ⟨items, ends, rfl, spellItems, spellEnds⟩ := spell_append source inside _ _ spellInside
  obtain ⟨closing, none_, rfl, isClosing, closeText, soundClosing, spellNone⟩ :=
    spell_cons source ends .rightParen ")" [] spellEnds
  rw [spell_nil source none_ spellNone]
  have enough : values.length ≤ (items ++ closing :: rest).length + 1 := by
    have counted := separated_length values starts
    rw [← spell_length source items _ spellItems] at counted
    rw [List.length_append]
    omega
  obtain ⟨parts, after, run, listed⟩ := listed_accepts values _ enough accepts starts items
    (closing :: rest) opening.span spellItems isClosing
  refine ⟨_, closing.span, ?_, .leaf .punctuation opening.span, parts,
    .leaf .punctuation closing.span, rfl, mark_of_lexeme source opening "(" soundOpening openText,
    mark_of_lexeme source closing ")" soundClosing closeText, listed⟩
  rw [List.cons_append, List.append_assoc, List.singleton_append, parenthesized, StateT.run_bind,
    expect_run _ _ _ _ _ isOpening, ok_bind]
  simp only [StateT.run_bind, remaining_run, ok_bind, run]
  rw [expect_run _ _ _ _ _ isClosing]
  rfl

end Lists

end Parser

end ScriptWasm
