import ScriptWasm.Proofs.Token.Indentation

/-!
The shape of a token is its kind and its text. Whether lexemes can be read as an expression or a
statement depends on their shapes alone.
-/

namespace ScriptWasm

set_option autoImplicit false

/-- A token as it looks, without its place. -/
abbrev Shape := TokenKind × String

def Lexeme.shape (lexeme : Lexeme) : Shape :=
  (lexeme.kind, lexeme.text)

def TokenKind.shape (kind : TokenKind) : Shape :=
  (kind, kind.spelling?.getD "")

def separated : List (List Shape) → List Shape
  | [] => []
  | [item] => item
  | item :: next :: rest => item ++ TokenKind.comma.shape :: separated (next :: rest)

theorem length_le_separated (items : List (List Shape)) (item : List Shape) (member : item ∈ items) :
    item.length ≤ (separated items).length := by
  induction items with
  | nil => cases member
  | cons first rest induction =>
      cases rest with
      | nil =>
          rw [List.mem_singleton.mp member]
          exact Nat.le_refl _
      | cons next others =>
          rw [separated, List.length_append, List.length_cons]
          rcases List.mem_cons.mp member with rfl | later
          · omega
          · have := induction later
            omega

def openAfter (parens : Nat) : List Shape → Nat
  | [] => parens
  | first :: rest =>
      openAfter
        (if first.1 = .leftParen then parens + 1
          else if first.1 = .rightParen then parens - 1 else parens) rest

theorem open_after_append (parens : Nat) (first rest : List Shape) :
    openAfter parens (first ++ rest) = openAfter (openAfter parens first) rest := by
  induction first generalizing parens with
  | nil => rfl
  | cons head tail induction => exact induction _

/-- Tokens that can stand inside a line, where the parentheses among them are closed again. -/
structure Inline (shapes : List Shape) : Prop where
  content : ∀ shape ∈ shapes, shape.1 ≠ .newline ∧ shape.1 ≠ .comment
  balanced : ∀ parens, openAfter parens shapes = parens

theorem inline_nil : Inline [] where
  content _ impossible := by cases impossible
  balanced _ := rfl

theorem inline_append (first second : List Shape) (inlineFirst : Inline first)
    (inlineSecond : Inline second) : Inline (first ++ second) where
  content shape member := by
    rcases List.mem_append.mp member with here | later
    · exact inlineFirst.content shape here
    · exact inlineSecond.content shape later
  balanced parens := by
    rw [open_after_append, inlineFirst.balanced, inlineSecond.balanced]

theorem inline_single (kind : TokenKind) (text : String)
    (plain : kind ∉ [.newline, .comment, .leftParen, .rightParen]) : Inline [(kind, text)] where
  content shape member := by
    rw [List.mem_singleton.mp member]
    constructor
    · rintro rfl
      exact plain (by decide)
    · rintro rfl
      exact plain (by decide)
  balanced parens := by
    have notOpen : kind ≠ .leftParen := by
      rintro rfl
      exact plain (by decide)
    have notClose : kind ≠ .rightParen := by
      rintro rfl
      exact plain (by decide)
    rw [openAfter, if_neg notOpen, if_neg notClose, openAfter]

theorem inline_cons (kind : TokenKind) (text : String) (rest : List Shape)
    (plain : kind ∉ [.newline, .comment, .leftParen, .rightParen]) (inline : Inline rest) :
    Inline ((kind, text) :: rest) :=
  inline_append [(kind, text)] rest (inline_single kind text plain) inline

theorem inline_parens (inside : List Shape) (inline : Inline inside) :
    Inline (TokenKind.leftParen.shape :: inside ++ [TokenKind.rightParen.shape]) where
  content shape member := by
    rw [List.cons_append, List.mem_cons, List.mem_append, List.mem_singleton] at member
    rcases member with rfl | here | rfl
    · decide
    · exact inline.content shape here
    · decide
  balanced parens := by
    have opened : openAfter parens [TokenKind.leftParen.shape] = parens + 1 := rfl
    have closed : openAfter (parens + 1) [TokenKind.rightParen.shape] = parens := rfl
    rw [← List.singleton_append, List.append_assoc, open_after_append, opened, open_after_append,
      inline.balanced, closed]

theorem inline_separated (items : List (List Shape)) (inline : ∀ item ∈ items, Inline item) :
    Inline (separated items) := by
  induction items with
  | nil => exact inline_nil
  | cons first rest induction =>
      have later := induction fun item member => inline item (by simp [member])
      cases rest with
      | nil => exact inline first (by simp)
      | cons next others =>
          exact inline_append _ _ (inline first (by simp))
            (inline_cons .comma "," _ (by decide) later)

structure Spell (source : List Char) (lexemes : List Lexeme) (shapes : List Shape) : Prop where
  looks : lexemes.map Lexeme.shape = shapes
  sound : ∀ lexeme ∈ lexemes, lexeme.Sound source

section Spelling

variable (source : List Char)

theorem spell_nil (lexemes : List Lexeme) (spell : Spell source lexemes []) : lexemes = [] :=
  List.map_eq_nil_iff.mp spell.looks

theorem spell_cons (lexemes : List Lexeme) (kind : TokenKind) (text : String) (shapes : List Shape)
    (spell : Spell source lexemes ((kind, text) :: shapes)) :
    ∃ first rest, lexemes = first :: rest ∧ first.kind = kind ∧ first.text = text ∧
      first.Sound source ∧ Spell source rest shapes := by
  cases lexemes with
  | nil => cases spell.looks
  | cons first rest =>
      have looks := spell.looks
      rw [List.map_cons, List.cons.injEq] at looks
      exact ⟨first, rest, rfl, congrArg Prod.fst looks.1, congrArg Prod.snd looks.1,
        spell.sound first (by simp), looks.2,
        fun lexeme member => spell.sound lexeme (by simp [member])⟩

theorem spell_append (lexemes : List Lexeme) (first second : List Shape)
    (spell : Spell source lexemes (first ++ second)) :
    ∃ before after, lexemes = before ++ after ∧ Spell source before first ∧
      Spell source after second := by
  obtain ⟨before, after, parts, looksBefore, looksAfter⟩ := List.map_eq_append_iff.mp spell.looks
  have sound := spell.sound
  rw [parts] at sound
  exact ⟨before, after, parts,
    ⟨looksBefore, fun lexeme member => sound lexeme (List.mem_append_left _ member)⟩,
    ⟨looksAfter, fun lexeme member => sound lexeme (List.mem_append_right _ member)⟩⟩

theorem spell_length (lexemes : List Lexeme) (shapes : List Shape)
    (spell : Spell source lexemes shapes) : lexemes.length = shapes.length := by
  rw [← spell.looks, List.length_map]

end Spelling

end ScriptWasm
