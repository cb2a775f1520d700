import ScriptWasm.Proofs.Token.Rows

/-!
Sources that are cut where a line starts. No token reaches over such a place except the two
characters of a line end, and so the tokens before it are those of the first part and the tokens
after it those of the second. A token keeps its kind, its text and the column of its line.
-/

namespace ScriptWasm

set_option autoImplicit false

/-- What a token says wherever it stands: its kind, its text and the column of its line. -/
structure Sight where
  kind : TokenKind
  text : String
  column : Nat

def Token.sight (source : List Char) (token : Token) : Sight :=
  ⟨token.kind, token.span.textIn source, Layout.columnOf source token.span.start⟩

def sightsOf (source : List Char) (tokens : List Token) : List Sight :=
  (tokens.filter (·.kind ≠ .comment)).map (·.sight source)

def sights (source : List Char) : List Sight :=
  sightsOf source (rawTokens source)

section Lengths

variable (text more : List Char)

theorem take_while_to_line_end (test : Char → Bool) (stops : test '\n' = false) :
    (text ++ '\n' :: more).takeWhile test = text.takeWhile test := by
  induction text with
  | nil => rw [List.nil_append, List.takeWhile_cons_of_neg (by simp [stops]), List.takeWhile_nil]
  | cons first rest induction =>
      rw [List.cons_append]
      by_cases kept : test first = true
      · rw [List.takeWhile_cons_of_pos kept, List.takeWhile_cons_of_pos kept, induction]
      · rw [List.takeWhile_cons_of_neg kept, List.takeWhile_cons_of_neg kept]

theorem take_one_line (oneLine : '\n' ∉ text) : text.takeWhile (· ≠ '\n') = text := by
  rw [List.takeWhile_eq_self_iff]
  intro char member
  refine decide_eq_true ?_
  rintro rfl
  exact oneLine member

theorem digits_to_line_end :
    Lexer.digitCount (text ++ '\n' :: more) = Lexer.digitCount text := by
  unfold Lexer.digitCount
  rw [take_while_to_line_end text more isDigit (by decide)]

theorem digit_count_le : Lexer.digitCount text ≤ text.length :=
  (List.takeWhile_prefix _).length_le

theorem fraction_to_line_end :
    Lexer.fractionLength (text ++ '\n' :: more) = Lexer.fractionLength text ∧
      Lexer.fractionLength text ≤ text.length := by
  cases text with
  | nil => exact ⟨rfl, Nat.le_refl 0⟩
  | cons first rest =>
      have few := digit_count_le rest
      rw [List.cons_append]
      unfold Lexer.fractionLength
      split
      · rename_i other same
        cases same
        simp only [digits_to_line_end, true_and, List.length_cons]
        split <;> omega
      · rename_i noPoint
        split
        · rename_i other same
          cases same
          exact absurd rfl (noPoint _)
        · exact ⟨rfl, Nat.zero_le _⟩

theorem sign_to_line_end :
    Lexer.signLength (text ++ '\n' :: more) = Lexer.signLength text ∧
      Lexer.signLength text ≤ text.length := by
  cases text with
  | nil => exact ⟨rfl, Nat.le_refl 0⟩
  | cons first rest =>
      rw [List.cons_append]
      unfold Lexer.signLength
      split <;> split <;> simp_all

theorem exponent_to_line_end :
    Lexer.exponentLength (text ++ '\n' :: more) = Lexer.exponentLength text ∧
      Lexer.exponentLength text ≤ text.length := by
  cases text with
  | nil => exact ⟨rfl, Nat.le_refl 0⟩
  | cons mark rest =>
      obtain ⟨sameSign, short⟩ := sign_to_line_end rest more
      have few := digit_count_le (rest.drop (Lexer.signLength rest))
      rw [List.length_drop] at few
      rw [List.cons_append]
      simp only [Lexer.exponentLength, sameSign, List.drop_append_of_le_length short,
        digits_to_line_end, List.length_cons, true_and]
      split
      · split <;> omega
      · omega

theorem number_to_line_end :
    Lexer.numberLength (text ++ '\n' :: more) = Lexer.numberLength text ∧
      Lexer.numberLength text ≤ text.length := by
  have whole := digit_count_le text
  obtain ⟨sameFraction, fraction⟩ := fraction_to_line_end (text.drop (Lexer.digitCount text)) more
  rw [List.length_drop] at fraction
  have reached : Lexer.digitCount text +
      Lexer.fractionLength (text.drop (Lexer.digitCount text)) ≤ text.length := by omega
  obtain ⟨sameExponent, exponent⟩ := exponent_to_line_end (text.drop (Lexer.digitCount text +
    Lexer.fractionLength (text.drop (Lexer.digitCount text)))) more
  rw [List.length_drop] at exponent
  simp only [Lexer.numberLength, digits_to_line_end, List.drop_append_of_le_length whole,
    sameFraction, List.drop_append_of_le_length reached, sameExponent, true_and]
  omega

theorem string_length_plain (quote first : Char) (rest : List Char) (plain : first ≠ '\\') :
    Lexer.stringLength quote (first :: rest) =
      if first = quote then (true, 1)
      else if first = '\n' then (false, 0)
      else ((Lexer.stringLength quote rest).1, (Lexer.stringLength quote rest).2 + 1) := by
  rw [Lexer.stringLength]
  · exact fun escape _ => plain escape
  · exact fun _ _ escape _ => plain escape

end Lengths

theorem string_to_line_end (text more : List Char) (quote : Char) (solid : quote ≠ '\n') :
    Lexer.stringLength quote (text ++ '\n' :: more) = Lexer.stringLength quote text ∧
      (Lexer.stringLength quote text).2 ≤ text.length := by
  match text with
  | [] =>
      rw [List.nil_append, string_length_plain _ _ _ (by decide), if_neg (Ne.symm solid),
        if_pos rfl]
      exact ⟨rfl, Nat.le_refl 0⟩
  | first :: rest =>
      obtain ⟨same, short⟩ := string_to_line_end rest more quote solid
      by_cases escape : first = '\\'
      · subst escape
        match rest with
        | [] =>
            refine ⟨?_, Nat.zero_le _⟩
            change Lexer.stringLength quote ('\\' :: '\n' :: more) = (false, 0)
            rw [Lexer.stringLength]
            exact if_pos rfl
        | escaped :: others =>
            obtain ⟨same, short⟩ := string_to_line_end others more quote solid
            rw [List.cons_append, List.cons_append, Lexer.stringLength, Lexer.stringLength, same]
            refine ⟨rfl, ?_⟩
            simp only [List.length_cons]
            split <;> simp only <;> omega
      · rw [List.cons_append, string_length_plain _ _ _ escape,
          string_length_plain _ _ _ escape, same]
        refine ⟨rfl, ?_⟩
        simp only [List.length_cons]
        split
        · simp
        · split <;> simp only <;> omega

section Tokens

variable (first : Char) (rest more : List Char)

theorem head_found {Item : Type} (items : List Item) (item : Item)
    (found : items.head? = some item) :
    1 ≤ items.length :=
  List.length_pos_of_mem (List.mem_of_mem_head? found)

theorem token_length_le : (Lexer.tokenAt first rest).2 ≤ rest.length := by
  unfold Lexer.tokenAt
  split
  · exact Nat.zero_le _
  split
  · rename_i returns
    rw [Bool.and_eq_true, decide_eq_true_eq, decide_eq_true_eq] at returns
    exact head_found rest '\n' returns.2
  split
  · exact (List.takeWhile_prefix _).length_le
  split
  · have short := (number_to_line_end (first :: rest) []).2
    rw [List.length_cons] at short
    simp only
    omega
  split
  · rename_i isQuote
    have solid : first ≠ '\n' := by
      rintro rfl
      exact absurd isQuote (by decide)
    exact (string_to_line_end rest [] first solid).2
  split
  · exact (List.takeWhile_prefix _).length_le
  split
  · rename_i found
    obtain ⟨second, head, _⟩ := Option.bind_eq_some_iff.mp found
    exact head_found rest second head
  · exact Nat.zero_le _

/-- A token does not see the end of its line, unless it is a carriage return just before it. -/
theorem token_to_line_end (inside : ¬(first = '\r' ∧ rest = [])) :
    Lexer.tokenAt first (rest ++ '\n' :: more) = Lexer.tokenAt first rest := by
  have returns : (decide (first = '\r') && decide ((rest ++ '\n' :: more).head? = some '\n')) =
      (decide (first = '\r') && decide (rest.head? = some '\n')) := by
    cases rest with
    | nil => simp [show first ≠ '\r' from fun isReturn => inside ⟨isReturn, rfl⟩]
    | cons next others => rfl
  have pairs : (rest ++ '\n' :: more).head?.bind (TokenKind.ofPair? first) =
      rest.head?.bind (TokenKind.ofPair? first) := by
    cases rest with
    | nil =>
        change TokenKind.ofPair? first '\n' = none
        unfold TokenKind.ofPair?
        split <;> first | rfl | (rename_i same; cases same)
    | cons next others => rfl
  unfold Lexer.tokenAt
  rw [returns, pairs, take_while_to_line_end _ _ Lexer.isNameChar (by decide),
    take_while_to_line_end _ _ (· ≠ '\n') (by decide), ← List.cons_append,
    (number_to_line_end (first :: rest) more).1]
  by_cases isQuote : (decide (first = '\x27') || decide (first = '\x22')) = true
  · have solid : first ≠ '\n' := by
      rintro rfl
      exact absurd isQuote (by decide)
    rw [(string_to_line_end rest more first solid).1]
  · simp only [if_neg isQuote]

end Tokens

section Lines

theorem tokens_from_skipped (offset : Nat) (first : Char) (rest : List Char)
    (skipped : Lexer.isSkipped first = true) :
    Lexer.tokensFrom offset (first :: rest) = Lexer.tokensFrom (offset + first.utf8Size) rest := by
  rw [Lexer.tokensFrom, if_pos skipped]

theorem tokens_from_solid (offset : Nat) (first : Char) (rest : List Char)
    (solid : ¬Lexer.isSkipped first = true) (kind : TokenKind) (more : Nat)
    (found : Lexer.tokenAt first rest = (kind, more)) :
    Lexer.tokensFrom offset (first :: rest) =
      ⟨kind, offset, offset + byteLength (first :: rest.take more)⟩ ::
        Lexer.tokensFrom (offset + byteLength (first :: rest.take more)) (rest.drop more) := by
  rw [Lexer.tokensFrom, if_neg solid, found]

theorem tokens_of_line_end (offset : Nat) (more : List Char) :
    Lexer.tokensFrom offset ('\n' :: more) =
      ⟨.newline, offset, offset + 1⟩ :: Lexer.tokensFrom (offset + 1) more :=
  tokens_from_solid offset '\n' more (by decide) .newline 0 rfl

theorem tokens_of_return (offset : Nat) (more : List Char) :
    Lexer.tokensFrom offset ('\r' :: '\n' :: more) =
      ⟨.newline, offset, offset + 2⟩ :: Lexer.tokensFrom (offset + 2) more :=
  tokens_from_solid offset '\r' ('\n' :: more) (by decide) .newline 1 rfl

theorem tokens_of_newline (offset : Nat) :
    Lexer.tokensFrom offset ['\n'] = [⟨.newline, offset, offset + 1⟩] := by
  rw [tokens_of_line_end, Lexer.tokensFrom]

/-- A token before the end of a line leaves the end of the line to the tokens after it. -/
theorem tokens_from_inside (offset : Nat) (first : Char) (rest more : List Char)
    (solid : ¬Lexer.isSkipped first = true) (kind : TokenKind) (length : Nat)
    (found : Lexer.tokenAt first rest = (kind, length)) (inside : ¬(first = '\r' ∧ rest = [])) :
    Lexer.tokensFrom offset (first :: rest ++ '\n' :: more) =
      ⟨kind, offset, offset + byteLength (first :: rest.take length)⟩ ::
        Lexer.tokensFrom (offset + byteLength (first :: rest.take length))
          (rest.drop length ++ '\n' :: more) := by
  have short := token_length_le first rest
  have cut := token_to_line_end first rest more inside
  rw [found] at short cut
  rw [List.cons_append, tokens_from_solid _ _ _ solid kind length cut,
    List.take_append_of_le_length short, List.drop_append_of_le_length short]

/-- The tokens of a line do not depend on what follows the line. -/
theorem tokens_of_line (offset : Nat) (text more : List Char) :
    Lexer.tokensFrom offset (text ++ '\n' :: more) =
      Lexer.tokensFrom offset (text ++ ['\n']) ++
        Lexer.tokensFrom (offset + byteLength (text ++ ['\n'])) more := by
  fun_induction Lexer.tokensFrom offset text with
  | case1 offset =>
      rw [List.nil_append, List.nil_append, tokens_of_line_end, tokens_of_newline]
      rfl
  | case2 offset first rest skipped induction =>
      rw [List.cons_append, List.cons_append, tokens_from_skipped _ _ _ skipped,
        tokens_from_skipped _ _ _ skipped, induction, byteLength, Nat.add_assoc]
  | case3 offset first rest solid kind length found stop induction =>
      by_cases inside : first = '\r' ∧ rest = []
      · obtain ⟨rfl, rfl⟩ := inside
        rw [List.singleton_append, List.singleton_append, tokens_of_return, tokens_of_return,
          Lexer.tokensFrom]
        rfl
      · have size : byteLength (first :: rest ++ ['\n']) =
            byteLength (first :: rest.take length) + byteLength (rest.drop length ++ ['\n']) := by
          rw [← byte_length_append, ← List.append_assoc]
          change _ = byteLength (first :: (rest.take length ++ rest.drop length) ++ ['\n'])
          rw [List.take_append_drop]
        rw [tokens_from_inside _ _ _ _ solid kind length found inside,
          tokens_from_inside _ _ _ _ solid kind length found inside, induction, size,
          ← Nat.add_assoc, List.cons_append]

theorem tokens_with_line_end (offset : Nat) (text : List Char)
    (sound : ∀ token ∈ Lexer.tokensFrom offset text, token.kind ≠ .error) :
    ∃ span, Lexer.tokensFrom offset (text ++ ['\n']) =
      Lexer.tokensFrom offset text ++ [⟨.newline, span⟩] := by
  fun_induction Lexer.tokensFrom offset text with
  | case1 offset => exact ⟨_, tokens_of_newline offset⟩
  | case2 offset first rest skipped induction =>
      rw [List.cons_append, tokens_from_skipped _ _ _ skipped]
      exact induction sound
  | case3 offset first rest solid kind length found stop induction =>
      have inside : ¬(first = '\r' ∧ rest = []) := by
        rintro ⟨rfl, rfl⟩
        cases found
        exact sound _ List.mem_cons_self rfl
      obtain ⟨span, same⟩ := induction fun token member =>
        sound token (List.mem_cons_of_mem _ member)
      refine ⟨span, ?_⟩
      rw [tokens_from_inside _ _ _ _ solid kind length found inside, same, List.cons_append]

theorem tokens_end_with_line (offset : Nat) (text : List Char) :
    ∃ tokens span, Lexer.tokensFrom offset (text ++ ['\n']) = tokens ++ [⟨.newline, span⟩] := by
  fun_induction Lexer.tokensFrom offset text with
  | case1 offset => exact ⟨[], _, tokens_of_newline offset⟩
  | case2 offset first rest skipped induction =>
      rw [List.cons_append, tokens_from_skipped _ _ _ skipped]
      exact induction
  | case3 offset first rest solid kind length found stop induction =>
      by_cases inside : first = '\r' ∧ rest = []
      · obtain ⟨rfl, rfl⟩ := inside
        rw [List.singleton_append, tokens_of_return, Lexer.tokensFrom]
        exact ⟨[], _, rfl⟩
      · obtain ⟨tokens, span, same⟩ := induction
        rw [tokens_from_inside _ _ _ _ solid kind length found inside, same, ← List.cons_append]
        exact ⟨_, span, rfl⟩

end Lines

/-- A blank line or one that only holds a comment, without the newline that ends it. -/
def IsBlankLine (line : List Char) : Prop :=
  ∃ blanks remark, line = blanks ++ remark ∧ (∀ char ∈ blanks, Lexer.isSkipped char = true) ∧
    (remark = [] ∨ ∃ text, remark = '#' :: text ∧ '\n' ∉ text)

theorem tokens_of_blanks (offset : Nat) (blanks rest : List Char)
    (skipped : ∀ char ∈ blanks, Lexer.isSkipped char = true) :
    Lexer.tokensFrom offset (blanks ++ rest) =
      Lexer.tokensFrom (offset + byteLength blanks) rest := by
  induction blanks generalizing offset with
  | nil => rfl
  | cons first others induction =>
      rw [List.cons_append, tokens_from_skipped _ _ _ (skipped first (by simp)),
        induction _ fun char member => skipped char (by simp [member]), byteLength, Nat.add_assoc]

theorem tokens_of_blank_line (line : List Char) (blank : IsBlankLine line) :
    ∃ span, (rawTokens (line ++ ['\n'])).filter (·.kind ≠ .comment) = [⟨.newline, span⟩] := by
  obtain ⟨blanks, remark, rfl, skipped, isRemark⟩ := blank
  rw [rawTokens, List.append_assoc, tokens_of_blanks _ _ _ skipped]
  rcases isRemark with rfl | ⟨text, rfl, oneLine⟩
  · rw [List.nil_append, tokens_of_newline]
    exact ⟨_, rfl⟩
  · have found : Lexer.tokenAt '#' text = (.comment, text.length) := by
      have same : Lexer.tokenAt '#' text = (.comment, (text.takeWhile (· ≠ '\n')).length) := rfl
      rw [same, take_one_line text oneLine]
    rw [tokens_from_inside _ _ _ _ (by decide) .comment text.length found (by simp),
      List.drop_length, List.nil_append, tokens_of_newline]
    exact ⟨_, rfl⟩

section Columns

/-- A text in which the line ends, or after which no blank goes on. -/
def EndsLine (left after : List Char) : Prop :=
  '\n' ∈ left ∨ ∀ char ∈ after.head?, char ≠ ' ' ∧ char ≠ '\t'

theorem column_stops (column : Nat) (text : List Char)
    (stops : ∀ char ∈ text.head?, char ≠ ' ' ∧ char ≠ '\t') :
    Layout.columnFrom column text = column := by
  unfold Layout.columnFrom
  split
  · exact absurd rfl (stops ' ' rfl).1
  · exact absurd rfl (stops '\t' rfl).2
  · rfl

theorem column_of_ended (column : Nat) (line after : List Char) (ends : EndsLine line after) :
    Layout.columnFrom column (line ++ after) = Layout.columnFrom column line := by
  fun_induction Layout.columnFrom column line with
  | case1 column rest induction =>
      rw [List.cons_append, Layout.columnFrom]
      exact induction (ends.imp_left fun member => by simpa using member)
  | case2 column rest induction =>
      rw [List.cons_append, Layout.columnFrom]
      exact induction (ends.imp_left fun member => by simpa using member)
  | case3 line column noSpace noTab =>
      apply column_stops
      cases line with
      | nil =>
          intro char head
          rcases ends with impossible | solid
          · cases impossible
          · exact solid char head
      | cons first rest =>
          intro char head
          cases head
          refine ⟨?_, ?_⟩
          · rintro rfl
            exact noSpace rest rfl
          · rintro rfl
            exact noTab rest rfl

theorem line_from_cons (line : List Char) (char : Char) (passed text : List Char) :
    Layout.lineFrom line (byteLength (char :: passed)) (char :: text) =
      Layout.lineFrom (if char = '\n' then text else line) (byteLength passed) text := by
  have positive := char.utf8Size_pos
  obtain ⟨offset, sum⟩ : ∃ offset, byteLength (char :: passed) = offset + 1 :=
    ⟨char.utf8Size + byteLength passed - 1, by rw [byteLength]; omega⟩
  have left : offset + 1 - char.utf8Size = byteLength passed := by
    rw [← sum, byteLength]
    omega
  rw [sum, Layout.lineFrom, left]

theorem line_from_reaches (line passed left : List Char) (reaches : left <:+ line) :
    left <:+ Layout.lineFrom line (byteLength passed) (passed ++ left) := by
  induction passed generalizing line with
  | nil =>
      rw [byteLength, Layout.lineFrom]
      exact reaches
  | cons char rest induction =>
      rw [List.cons_append, line_from_cons]
      apply induction
      split
      · exact List.suffix_append rest left
      · exact reaches

theorem line_from_append (line passed left after : List Char) :
    Layout.lineFrom (line ++ after) (byteLength passed) (passed ++ left ++ after) =
      Layout.lineFrom line (byteLength passed) (passed ++ left) ++ after := by
  induction passed generalizing line with
  | nil => rw [byteLength, Layout.lineFrom, Layout.lineFrom]
  | cons char rest induction =>
      rw [List.cons_append, List.cons_append, line_from_cons, line_from_cons, ← induction]
      split <;> rfl

/-- The column of a line depends on nothing before the line or after it. -/
theorem column_in_middle (before passed left after : List Char) (starts : LineStart before)
    (ends : EndsLine left after) :
    Layout.columnOf (before ++ (passed ++ left) ++ after) (byteLength (before ++ passed)) =
      Layout.columnOf (passed ++ left) (byteLength passed) := by
  have alone : Layout.columnOf (passed ++ left ++ after) (byteLength passed) =
      Layout.columnOf (passed ++ left) (byteLength passed) := by
    rw [Layout.columnOf, Layout.columnOf, line_from_append]
    refine column_of_ended 0 _ after (ends.imp_left fun member => ?_)
    exact (line_from_reaches _ passed left (List.suffix_append passed left)).subset member
  rcases starts with rfl | ⟨earlier, rfl⟩
  · exact alone
  · rw [← alone, Layout.columnOf, Layout.columnOf, byte_length_append]
    simp only [List.append_assoc, List.cons_append, List.nil_append, line_from_next_line]

end Columns

section Sights

theorem line_start_of_suffix (text rest : List Char) (starts : LineStart text)
    (suffix : rest <:+ text) : LineStart rest := by
  obtain ⟨taken, rfl⟩ := suffix
  rcases starts with none | ⟨earlier, same⟩
  · exact Or.inl (List.append_eq_nil_iff.mp none).2
  · rcases List.eq_nil_or_concat rest with rfl | ⟨others, last, rfl⟩
    · exact Or.inl rfl
    · rw [List.concat_eq_append, ← List.append_assoc] at same
      have lasts := List.append_inj_right' same rfl
      exact Or.inr ⟨others, by rw [List.concat_eq_append, lasts]⟩

/-- Tokens between the start of a line and the end of one are the same in every source. -/
theorem sights_in_middle (before passed left after : List Char) (starts : LineStart before)
    (ends : LineStart left ∨ ∀ char ∈ after.head?, char ≠ ' ' ∧ char ≠ '\t') :
    (Lexer.tokensFrom (byteLength (before ++ passed)) left).map
        (·.sight (before ++ (passed ++ left) ++ after)) =
      (Lexer.tokensFrom (byteLength passed) left).map (·.sight (passed ++ left)) := by
  generalize start : byteLength passed = offset
  fun_induction Lexer.tokensFrom offset left generalizing passed with
  | case1 offset =>
      rw [Lexer.tokensFrom]
      rfl
  | case2 offset first rest skipped induction =>
      have later := induction (passed ++ [first])
        (ends.imp_left fun starts => line_start_of_suffix _ _ starts (List.suffix_cons first rest))
        (by rw [byte_length_append, start]; rfl)
      rw [tokens_from_skipped _ _ _ skipped]
      simpa [byte_length_append, byteLength, Nat.add_assoc] using later
  | case3 offset first rest solid kind more found stop induction =>
      have cut : first :: rest = (first :: rest.take more) ++ rest.drop more := by
        rw [List.cons_append, List.take_append_drop]
      have stopAt : byteLength (passed ++ (first :: rest.take more)) = stop := by
        rw [byte_length_append, start]
      have later := induction (passed ++ (first :: rest.take more))
        (ends.imp_left fun starts => line_start_of_suffix _ _ starts
          ⟨first :: rest.take more, cut.symm⟩) stopAt
      have line : EndsLine (first :: rest) after := by
        rcases ends with (impossible | ⟨earlier, same⟩) | solid
        · cases impossible
        · exact Or.inl (by rw [same]; simp)
        · exact Or.inr solid
      have column := column_in_middle before passed (first :: rest) after starts line
      have text := text_in_middle (before ++ passed) (first :: rest.take more)
        (rest.drop more ++ after)
      have textAlone := text_in_middle passed (first :: rest.take more) (rest.drop more)
      have whole : before ++ passed ++ (first :: rest.take more) ++ (rest.drop more ++ after) =
          before ++ (passed ++ first :: rest) ++ after := by
        conv_rhs => rw [cut]
        simp only [List.append_assoc]
      have wholeAlone : passed ++ (first :: rest.take more) ++ rest.drop more =
          passed ++ first :: rest := by
        conv_rhs => rw [cut]
        rw [List.append_assoc]
      rw [whole, byte_length_append (before ++ passed)] at text
      rw [wholeAlone, stopAt, start] at textAlone
      rw [start] at column
      rw [tokens_from_solid _ _ _ solid kind more found, List.map_cons, List.map_cons]
      refine congrArg₂ List.cons ?_ ?_
      · simp only [Token.sight, text, textAlone, column]
      · have stopThere : byteLength (before ++ (passed ++ first :: rest.take more)) =
            byteLength (before ++ passed) + byteLength (first :: rest.take more) := by
          rw [← List.append_assoc, byte_length_append]
        rw [wholeAlone, stopThere] at later
        exact later

theorem sights_of_append (source : List Char) (tokens more : List Token) :
    sightsOf source (tokens ++ more) = sightsOf source tokens ++ sightsOf source more := by
  rw [sightsOf, List.filter_append, List.map_append, sightsOf, sightsOf]

theorem sights_of_same (source other : List Char) (tokens others : List Token)
    (same : tokens.map (·.sight source) = others.map (·.sight other)) :
    sightsOf source tokens = sightsOf other others := by
  have shown : ∀ (text : List Char) (list : List Token),
      sightsOf text list = (list.map (·.sight text)).filter fun sight => sight.kind ≠ .comment := by
    intro text list
    rw [List.filter_map]
    rfl
  rw [shown, shown, same]

/-- The tokens of a source that is cut at the start of a line are those of its two parts. -/
theorem sights_append (before after : List Char) (starts : LineStart before) :
    sights (before ++ after) = sights before ++ sights after := by
  have first := sights_in_middle [] [] before after (Or.inl rfl) (Or.inl starts)
  have second := sights_in_middle before [] after [] starts (Or.inr (by simp))
  simp only [List.nil_append, List.append_nil] at first second
  have parts : rawTokens (before ++ after) =
      rawTokens before ++ Lexer.tokensFrom (byteLength before) after := by
    rcases starts with rfl | ⟨earlier, rfl⟩
    · rw [rawTokens, rawTokens, Lexer.tokensFrom]
      rfl
    · rw [rawTokens, List.append_assoc, List.singleton_append, tokens_of_line, Nat.zero_add]
      rfl
  rw [sights, parts, sights_of_append]
  exact congrArg₂ _ (sights_of_same _ _ _ _ first) (sights_of_same _ _ _ _ second)

theorem sights_with_line_end (source : List Char)
    (sound : ∀ token ∈ rawTokens source, token.kind ≠ .error) :
    ∃ last, sights (source ++ ['\n']) = sights source ++ [last] ∧ last.kind = .newline := by
  obtain ⟨span, parts⟩ := tokens_with_line_end 0 source sound
  have first := sights_in_middle [] [] source ['\n'] (Or.inl rfl) (Or.inr (by simp))
  simp only [List.nil_append] at first
  let last : Token := ⟨.newline, span⟩
  refine ⟨last.sight (source ++ ['\n']), ?_, rfl⟩
  rw [sights, rawTokens, parts, sights_of_append]
  exact congrArg₂ _ (sights_of_same _ _ _ _ first) rfl

/-- A part of a source that ends where a line starts has a newline for its last token. -/
theorem sights_of_lines (before : List Char) (starts : LineStart before) (filled : before ≠ []) :
    ∃ others last, sights before = others ++ [last] ∧ last.kind = .newline := by
  rcases starts with none | ⟨earlier, rfl⟩
  · exact absurd none filled
  · obtain ⟨tokens, span, parts⟩ := tokens_end_with_line 0 earlier
    let last : Token := ⟨.newline, span⟩
    refine ⟨sightsOf (earlier ++ ['\n']) tokens, last.sight (earlier ++ ['\n']), ?_, rfl⟩
    rw [sights, rawTokens, parts, sights_of_append]
    rfl

theorem sights_of_blank_line (line : List Char) (blank : IsBlankLine line) :
    ∃ last, sights (line ++ ['\n']) = [last] ∧ last.kind = .newline := by
  obtain ⟨span, shown⟩ := tokens_of_blank_line line blank
  let last : Token := ⟨.newline, span⟩
  refine ⟨last.sight (line ++ ['\n']), ?_, rfl⟩
  rw [sights, sightsOf, shown]
  rfl

end Sights

end ScriptWasm
