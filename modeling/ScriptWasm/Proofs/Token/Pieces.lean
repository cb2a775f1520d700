import ScriptWasm.Proofs.Text.Decimals
import ScriptWasm.Proofs.Token.Shapes

/-!
How pieces of text are cut into tokens. A piece is cut in the same way wherever it stands, as long
as what follows it does not go on with its last token.
-/

namespace ScriptWasm

set_option autoImplicit false

/-- A piece of text whose tokens have some shapes, before every text that may follow it. -/
def Lexes (text : List Char) (shapes : List Shape) (follows : List Char → Prop) : Prop :=
  ∀ before rest, follows rest → ∃ tokens,
    Lexer.tokensFrom (byteLength before) (text ++ rest) =
      tokens ++ Lexer.tokensFrom (byteLength (before ++ text)) rest ∧
    tokens.map (fun token => (token.lexeme (before ++ text ++ rest)).shape) = shapes

def Anything (_ : List Char) : Prop :=
  True

def EndsWord (rest : List Char) : Prop :=
  ∀ char ∈ rest.head?, Lexer.isNameChar char = false ∧ char ≠ '.'

def StartsWith (char : Char) (rest : List Char) : Prop :=
  rest.head? = some char

theorem ends_word_cons (char : Char) (rest : List Char)
    (stops : Lexer.isNameChar char = false ∧ char ≠ '.') : EndsWord (char :: rest) := by
  intro other head
  cases head
  exact stops

theorem ends_word_of_space (rest : List Char) (starts : StartsWith ' ' rest) : EndsWord rest := by
  cases rest with
  | nil => cases starts
  | cons char others =>
      cases starts
      exact ends_word_cons ' ' others (by decide)

/-- The first character of a text that starts a token, and does not end an arrow. -/
def StartsToken (text : List Char) : Prop :=
  ∃ first rest, text = first :: rest ∧ Lexer.isSkipped first = false ∧ first ≠ '>'

theorem starts_token_append (first second : List Char) (starts : StartsToken first) :
    StartsToken (first ++ second) := by
  obtain ⟨char, rest, rfl, solid, notArrow⟩ := starts
  exact ⟨char, rest ++ second, rfl, solid, notArrow⟩

theorem lexes_nil (follows : List Char → Prop) : Lexes [] [] follows := by
  intro before rest _
  exact ⟨[], by rw [List.append_nil]; rfl, rfl⟩

theorem lexes_append (first second : List Char) (shapes others : List Shape)
    (between follows : List Char → Prop) (lexesFirst : Lexes first shapes between)
    (lexesSecond : Lexes second others follows)
    (meets : ∀ rest, follows rest → between (second ++ rest)) :
    Lexes (first ++ second) (shapes ++ others) follows := by
  intro before rest allowed
  obtain ⟨tokens, cut, looks⟩ := lexesFirst before (second ++ rest) (meets rest allowed)
  obtain ⟨later, cutLater, looksLater⟩ := lexesSecond (before ++ first) rest allowed
  refine ⟨tokens ++ later, ?_, ?_⟩
  · rw [List.append_assoc, cut, cutLater, List.append_assoc, List.append_assoc]
  · rw [List.map_append]
    congr 1
    · rw [← looks]
      simp only [List.append_assoc]
    · rw [← looksLater]
      simp only [List.append_assoc]

theorem lexes_weaken (text : List Char) (shapes : List Shape) (follows other : List Char → Prop)
    (lexes : Lexes text shapes follows) (stronger : ∀ rest, other rest → follows rest) :
    Lexes text shapes other :=
  fun before rest allowed => lexes before rest (stronger rest allowed)

theorem lexes_space : Lexes [' '] [] Anything := by
  intro before rest _
  refine ⟨[], ?_, rfl⟩
  rw [List.cons_append, List.nil_append, Lexer.tokensFrom, if_pos (by decide), byte_length_append]
  rfl

theorem lexes_spaces (count : Nat) : Lexes (List.replicate count ' ') [] Anything := by
  induction count with
  | zero => exact lexes_nil Anything
  | succ count induction =>
      rw [List.replicate_succ]
      exact lexes_append [' '] _ [] [] Anything Anything lexes_space induction fun _ _ => trivial

theorem lexes_token (first : Char) (more : List Char) (kind : TokenKind)
    (follows : List Char → Prop) (solid : Lexer.isSkipped first = false)
    (found : ∀ rest, follows rest → Lexer.tokenAt first (more ++ rest) = (kind, more.length)) :
    Lexes (first :: more) [(kind, String.ofList (first :: more))] follows := by
  intro before rest allowed
  refine ⟨[⟨kind, byteLength before, byteLength (before ++ first :: more)⟩], ?_, ?_⟩
  · rw [List.cons_append, Lexer.tokensFrom, if_neg (by rw [solid]; decide), found rest allowed]
    simp only [List.take_left, List.drop_left, byte_length_append]
    rfl
  · rw [List.map_singleton, Token.lexeme, text_in_middle]
    rfl

theorem lexes_word (word : String) (first : Char) (more : List Char)
    (chars : word.toList = first :: more) (starts : Lexer.isNameStart first = true)
    (letters : more.all Lexer.isNameChar = true) :
    Lexes word.toList [(.ofWord word, word)] EndsWord := by
  have text : String.ofList (first :: more) = word := by rw [← chars, String.ofList_toList]
  have solid : first ≠ '\n' ∧ first ≠ '\r' ∧ Lexer.isSkipped first = false := by
    refine ⟨?_, ?_, ?_⟩
    · rintro rfl
      exact absurd starts (by decide)
    · rintro rfl
      exact absurd starts (by decide)
    · rw [Lexer.isSkipped, Bool.or_eq_false_iff, Bool.or_eq_false_iff]
      refine ⟨⟨?_, ?_⟩, ?_⟩ <;>
        (rw [decide_eq_false_iff_not]; rintro rfl; exact absurd starts (by decide))
  rw [chars]
  have lexes := lexes_token first more (.ofWord word) EndsWord solid.2.2 ?_
  · rw [text] at lexes
    exact lexes
  · intro rest allowed
    have taken : (more ++ rest).takeWhile Lexer.isNameChar = more := by
      rw [List.takeWhile_append_of_pos (List.all_eq_true.mp letters)]
      cases rest with
      | nil => rw [List.takeWhile_nil, List.append_nil]
      | cons char others =>
          have stops := (allowed char rfl).1
          rw [List.takeWhile_cons_of_neg (by rw [stops]; decide), List.append_nil]
    rw [Lexer.tokenAt, if_neg solid.1, if_neg (by simp [solid.2.1]), if_pos starts]
    simp only [taken, text]

theorem lexes_name (word : String) (isName : IsName word) :
    Lexes word.toList [(.name, word)] EndsWord := by
  obtain ⟨first, more, chars, starts, letters⟩ := isName.letters
  have lexes := lexes_word word first more chars starts (List.all_eq_true.mpr letters)
  rw [isName.free] at lexes
  exact lexes

theorem lexes_reserved (kind : TokenKind) (word : String) (reserved : .ofWord word = kind)
    (letters : ∃ first more, word.toList = first :: more ∧ Lexer.isNameStart first = true ∧
      more.all Lexer.isNameChar = true) : Lexes word.toList [(kind, word)] EndsWord := by
  obtain ⟨first, more, chars, starts, others⟩ := letters
  have lexes := lexes_word word first more chars starts others
  rw [reserved] at lexes
  exact lexes

theorem lexes_mark (char : Char) (kind : TokenKind) (follows : List Char → Prop)
    (solid : Lexer.isSkipped char = false)
    (found : ∀ rest, follows rest → Lexer.tokenAt char rest = (kind, 0)) :
    Lexes [char] [(kind, String.ofList [char])] follows :=
  lexes_token char [] kind follows solid found

theorem lexes_open : Lexes ['('] [TokenKind.leftParen.shape] Anything :=
  lexes_mark '(' .leftParen Anything (by decide) fun rest _ => by cases rest <;> rfl

theorem lexes_close : Lexes [')'] [TokenKind.rightParen.shape] Anything :=
  lexes_mark ')' .rightParen Anything (by decide) fun rest _ => by cases rest <;> rfl

theorem lexes_colon : Lexes [':'] [TokenKind.colon.shape] Anything :=
  lexes_mark ':' .colon Anything (by decide) fun rest _ => by cases rest <;> rfl

theorem lexes_comma : Lexes [','] [TokenKind.comma.shape] Anything :=
  lexes_mark ',' .comma Anything (by decide) fun rest _ => by cases rest <;> rfl

theorem lexes_minus : Lexes ['-'] [TokenKind.minus.shape] (fun rest => rest.head? ≠ some '>') := by
  apply lexes_mark '-' .minus _ (by decide)
  intro rest notArrow
  cases rest with
  | nil => rfl
  | cons char others =>
      have pair : TokenKind.ofPair? '-' char = none := by
        unfold TokenKind.ofPair?
        split <;> first | rfl | simp_all
      rw [Lexer.tokenAt, if_neg (by decide), if_neg (by simp), if_neg (by decide),
        if_neg (by decide), if_neg (by decide), if_neg (by decide)]
      simp only [List.head?_cons, Option.bind_some, pair]
      rfl

theorem lexes_between (text : List Char) (shape : Shape)
    (lexes : Lexes text [shape] (StartsWith ' ')) : Lexes (' ' :: text ++ [' ']) [shape] Anything := by
  apply lexes_append (' ' :: text) [' '] [shape] [] (StartsWith ' ') Anything _ lexes_space
  · exact fun _ _ => rfl
  · exact lexes_append [' '] text [] [shape] Anything (StartsWith ' ') lexes_space lexes
      fun _ _ => trivial

theorem digit_facts (char : Char) (digit : isDigit char = true) :
    Lexer.isNameStart char = false ∧ char ≠ '\n' ∧ char ≠ '\r' ∧ Lexer.isSkipped char = false := by
  have bounds : 48 ≤ char.toNat ∧ char.toNat ≤ 57 := by
    rw [isDigit, Bool.and_eq_true, decide_eq_true_eq, decide_eq_true_eq, Char.le_def, Char.le_def,
      UInt32.le_iff_toNat_le, UInt32.le_iff_toNat_le] at digit
    exact digit
  have other : ∀ code : Char, (code.toNat < 48 ∨ 57 < code.toNat) → char ≠ code := by
    rintro code far rfl
    omega
  refine ⟨?_, other '\n' (by decide), other '\r' (by decide), ?_⟩
  · rw [Lexer.isNameStart, Bool.or_eq_false_iff, Bool.or_eq_false_iff, Bool.and_eq_false_iff,
      Bool.and_eq_false_iff, decide_eq_false_iff_not, decide_eq_false_iff_not,
      decide_eq_false_iff_not, Char.le_def, Char.le_def, UInt32.le_iff_toNat_le,
      UInt32.le_iff_toNat_le]
    refine ⟨⟨Or.inl ?_, Or.inl ?_⟩, decide_eq_false (other '_' (by decide))⟩
    · exact Nat.not_le.mpr (Nat.lt_of_le_of_lt bounds.2 (by decide))
    · exact Nat.not_le.mpr (Nat.lt_of_le_of_lt bounds.2 (by decide))
  · rw [Lexer.isSkipped, Bool.or_eq_false_iff, Bool.or_eq_false_iff]
    exact ⟨⟨decide_eq_false (other ' ' (by decide)), decide_eq_false (other '\t' (by decide))⟩,
      decide_eq_false (other '\x0c' (by decide))⟩

/-- The digits of a number, where no point or exponent follows. -/
theorem lexes_number (number : Nat) :
    Lexes (decimalChars number) [(.number, decimal number)] EndsWord := by
  obtain ⟨first, more, digits, starts, others⟩ := decimal_chars_start number
  obtain ⟨noName, noNewline, noReturn, solid⟩ := digit_facts first starts
  rw [decimal, digits]
  apply lexes_token first more .number EndsWord solid
  intro rest allowed
  have counted : Lexer.digitCount (first :: (more ++ rest)) = more.length + 1 := by
    rw [Lexer.digitCount, List.takeWhile_cons_of_pos starts, List.takeWhile_append_of_pos others]
    cases rest with
    | nil => rw [List.takeWhile_nil, List.append_nil, List.length_cons]
    | cons char later =>
        have stops := (allowed char rfl).1
        rw [Lexer.isNameChar, Bool.or_eq_false_iff] at stops
        rw [List.takeWhile_cons_of_neg (by rw [stops.2]; decide), List.append_nil, List.length_cons]
  have left : (first :: (more ++ rest)).drop (more.length + 1) = rest := by
    rw [List.drop_succ_cons, List.drop_left]
  have whole : Lexer.numberLength (first :: (more ++ rest)) = more.length + 1 := by
    have noFraction : Lexer.fractionLength rest = 0 := by
      unfold Lexer.fractionLength
      split
      · exact absurd rfl (allowed '.' rfl).2
      · rfl
    have noExponent : Lexer.exponentLength rest = 0 := by
      cases rest with
      | nil => rfl
      | cons mark later =>
          have stops := (allowed mark rfl).1
          rw [Lexer.exponentLength, if_neg]
          intro isMark
          rw [Bool.or_eq_true, decide_eq_true_eq, decide_eq_true_eq] at isMark
          rcases isMark with rfl | rfl <;> exact absurd stops (by decide)
    rw [Lexer.numberLength, counted]
    simp only [left, noFraction, Nat.add_zero, noExponent]
  rw [Lexer.tokenAt, if_neg noNewline, if_neg (by simp [noReturn]), if_neg (by rw [noName]; decide),
    if_pos starts, whole]
  rfl

end ScriptWasm
