import ScriptWasm.Proofs.Token.Patterns
import ScriptWasm.Proofs.Token.WellNested

/-!
Tokens are longest matches. The token at the start of a text fits the pattern of its kind and is at
least as long as every beginning of the text that fits some pattern; of two kinds that fit the same
beginning, one is that of names, and it gives way. Where no beginning fits any pattern, an error token
takes the longest beginning of a string, or one character.
-/

namespace ScriptWasm

set_option autoImplicit false

open Computability

/-- A beginning of a text that is the longest one in a language. -/
structure LongestIn (language : Language Char) (text taken : List Char) : Prop where
  starts : taken <+: text
  inside : taken ∈ language
  longest : ∀ other ∈ language, other <+: text → other.length ≤ taken.length

/-- The longest beginning of a text that fits a pattern, with the kind of the token. A kind that fits
the same beginning is that of names, so that reserved words come before names. -/
structure LongestMatch (text : List Char) (kind : TokenKind) (taken : List Char) : Prop where
  starts : taken <+: text
  matched : taken ∈ kind.pattern
  longest : ∀ other : TokenKind, ∀ longer ∈ other.pattern, longer <+: text →
    longer.length ≤ taken.length
  preferred : ∀ other : TokenKind, taken ∈ other.pattern → other = kind ∨ other = .name
  noBlanks : ∀ skipped ∈ Pattern.blanks, ¬skipped <+: text

/-- The beginning of a text where nothing fits a pattern: the longest beginning of a string, or one
character that is no quote. -/
structure NoMatch (text taken : List Char) : Prop where
  starts : taken <+: text
  unmatched : ∀ kind : TokenKind, ∀ other ∈ kind.pattern, ¬other <+: text
  noBlanks : ∀ skipped ∈ Pattern.blanks, ¬skipped <+: text
  extent : (∃ char, taken = [char] ∧ char ≠ '\x27' ∧ char ≠ '\x22') ∨
    ∃ quote, (quote = '\x27' ∨ quote = '\x22') ∧ LongestIn (Pattern.opened quote) text taken

section Numbers

variable (text after : List Char)

theorem digit_count_of_digits (digits : List Char) (all : ∀ char ∈ digits, isDigit char = true) :
    Lexer.digitCount (digits ++ after) = digits.length + Lexer.digitCount after := by
  rw [Lexer.digitCount, List.takeWhile_append_of_pos all, List.length_append, Lexer.digitCount]

theorem digit_count_none (first : Char) (other : isDigit first = false) :
    Lexer.digitCount (first :: after) = 0 := by
  rw [Lexer.digitCount, List.takeWhile_cons_of_neg (by simp [other]), List.length_nil]

theorem taken_digits (filled : Lexer.digitCount text ≠ 0) :
    text.take (Lexer.digitCount text) ∈ Pattern.repeated Pattern.digit := by
  have taken : text.take (Lexer.digitCount text) = text.takeWhile isDigit :=
    (List.prefix_iff_eq_take.mp (List.takeWhile_prefix _)).symm
  rw [Lexer.digitCount] at filled
  rw [taken, Pattern.mem_digits_iff]
  exact ⟨fun none => filled (by rw [none]; rfl), fun char member => List.mem_takeWhile_imp member⟩

theorem taken_fraction : text.take (Lexer.fractionLength text) = [] ∨
    text.take (Lexer.fractionLength text) ∈ Pattern.fraction := by
  unfold Lexer.fractionLength
  split
  · rename_i rest
    split
    · exact .inl rfl
    · rename_i filled
      exact .inr ((Pattern.mem_fraction_iff _).mpr ⟨_, List.take_succ_cons, taken_digits rest filled⟩)
  · exact .inl rfl

theorem taken_sign : text.take (Lexer.signLength text) = [] ∨
    text.take (Lexer.signLength text) = ['+'] ∨ text.take (Lexer.signLength text) = ['-'] := by
  unfold Lexer.signLength
  split
  · exact .inr (.inl rfl)
  · exact .inr (.inr rfl)
  · exact .inl rfl

theorem taken_exponent : text.take (Lexer.exponentLength text) = [] ∨
    text.take (Lexer.exponentLength text) ∈ Pattern.exponent := by
  unfold Lexer.exponentLength
  split
  · exact .inl rfl
  · rename_i mark rest
    split
    · rename_i isMark
      simp only
      split
      · exact .inl rfl
      · rename_i filled
        rw [Bool.or_eq_true, decide_eq_true_eq, decide_eq_true_eq] at isMark
        refine .inr ((Pattern.mem_exponent_iff _).mpr ⟨mark, rest.take (Lexer.signLength rest), _, ?_,
          isMark, taken_sign rest, taken_digits _ filled⟩)
        rw [Nat.add_assoc, Nat.add_comm 1, List.take_succ_cons, List.take_add]
    · exact .inl rfl

theorem taken_number (filled : Lexer.digitCount text ≠ 0) :
    text.take (Lexer.numberLength text) ∈ Pattern.number := by
  rw [Lexer.numberLength, Nat.add_assoc, List.take_add, List.take_add, List.drop_drop]
  exact (Pattern.mem_number_iff _).mpr
    ⟨_, _, _, rfl, taken_digits text filled, taken_fraction _, taken_exponent _⟩

theorem exponent_reaches (power : List Char) (known : power ∈ Pattern.exponent) :
    power.length ≤ Lexer.exponentLength (power ++ after) := by
  obtain ⟨mark, sign, digits, rfl, isMark, signed, inside⟩ := (Pattern.mem_exponent_iff power).mp known
  obtain ⟨filled, all⟩ := (Pattern.mem_digits_iff digits).mp inside
  have signs : Lexer.signLength (sign ++ (digits ++ after)) = sign.length := by
    rcases signed with rfl | rfl | rfl
    · obtain ⟨first, rest, rfl⟩ := List.exists_cons_of_ne_nil filled
      have digit := all first List.mem_cons_self
      rw [List.nil_append, List.cons_append, Lexer.signLength]
      · rfl
      · intro tail same
        rw [(List.cons.inj same).1] at digit
        exact absurd digit (by decide)
      · intro tail same
        rw [(List.cons.inj same).1] at digit
        exact absurd digit (by decide)
    · rfl
    · rfl
  have count := digit_count_of_digits after digits all
  have some := List.length_pos_of_ne_nil filled
  rw [List.cons_append, List.append_assoc, Lexer.exponentLength,
    if_pos (by simpa using isMark), signs, List.drop_left]
  simp only [List.length_cons, List.length_append]
  rw [if_neg (by omega)]
  omega

/-- The mark of an exponent ends the digits before it, and so does a point. -/
theorem exponent_stops (power : List Char) (known : power ∈ Pattern.exponent) :
    Lexer.digitCount (power ++ after) = 0 ∧ Lexer.fractionLength (power ++ after) = 0 := by
  obtain ⟨mark, sign, digits, rfl, isMark, _⟩ := (Pattern.mem_exponent_iff power).mp known
  rcases isMark with rfl | rfl
  · exact ⟨digit_count_none _ _ (by decide), rfl⟩
  · exact ⟨digit_count_none _ _ (by decide), rfl⟩

theorem fraction_goes_on (part : List Char) (known : part ∈ Pattern.fraction) :
    Lexer.digitCount (part ++ after) = 0 ∧
      Lexer.fractionLength (part ++ after) = part.length + Lexer.digitCount after := by
  obtain ⟨digits, rfl, inside⟩ := (Pattern.mem_fraction_iff part).mp known
  obtain ⟨filled, all⟩ := (Pattern.mem_digits_iff digits).mp inside
  have count := digit_count_of_digits after digits all
  have some := List.length_pos_of_ne_nil filled
  refine ⟨digit_count_none _ '.' (by decide), ?_⟩
  rw [List.cons_append, Lexer.fractionLength, count, if_neg (by omega), List.length_cons]
  omega

theorem unscaled_reaches (whole part : List Char) (digits : ∀ char ∈ whole, isDigit char = true)
    (fractional : part = [] ∨ part ∈ Pattern.fraction) :
    whole.length + part.length ≤ Lexer.numberLength (whole ++ (part ++ after)) := by
  have count := digit_count_of_digits (part ++ after) whole digits
  rw [Lexer.numberLength, count]
  rcases fractional with rfl | fraction
  · rw [List.length_nil]
    omega
  · obtain ⟨noDigits, goesOn⟩ := fraction_goes_on after part fraction
    simp only [noDigits, Nat.add_zero, List.drop_left, goesOn]
    omega

theorem scaled_reaches (whole part power : List Char)
    (digits : ∀ char ∈ whole, isDigit char = true)
    (fractional : part = [] ∨ part ∈ Pattern.fraction) (known : power ∈ Pattern.exponent) :
    whole.length + part.length + power.length ≤
      Lexer.numberLength (whole ++ (part ++ (power ++ after))) := by
  obtain ⟨noDigits, noFraction⟩ := exponent_stops after power known
  have count := digit_count_of_digits (part ++ (power ++ after)) whole digits
  have split : Lexer.digitCount (part ++ (power ++ after)) = 0 ∧
      Lexer.fractionLength (part ++ (power ++ after)) = part.length := by
    rcases fractional with rfl | fraction
    · exact ⟨noDigits, noFraction⟩
    · obtain ⟨stops, goesOn⟩ := fraction_goes_on (power ++ after) part fraction
      exact ⟨stops, by rw [goesOn, noDigits, Nat.add_zero]⟩
  have left : (whole ++ (part ++ (power ++ after))).drop (whole.length + part.length) =
      power ++ after := by
    rw [← List.drop_drop, List.drop_left, List.drop_left]
  rw [Lexer.numberLength, count, split.1, Nat.add_zero, List.drop_left, split.2]
  simp only [left]
  have fits := exponent_reaches after power known
  omega

theorem number_reaches (number : List Char) (known : number ∈ Pattern.number) :
    number.length ≤ Lexer.numberLength (number ++ after) := by
  obtain ⟨whole, part, power, rfl, inside, fractional, exponential⟩ :=
    (Pattern.mem_number_iff number).mp known
  have digits := ((Pattern.mem_digits_iff whole).mp inside).2
  simp only [List.length_append, List.append_assoc]
  rcases exponential with rfl | exponent
  · simpa using unscaled_reaches after whole part digits fractional
  · have reaches := scaled_reaches after whole part power digits fractional exponent
    omega

end Numbers

section Strings

variable (quote : Char)

theorem string_length_through (body after : List Char)
    (inside : body ∈ (Pattern.quotable quote)∗) :
    Lexer.stringLength quote (body ++ after) =
      ((Lexer.stringLength quote after).1, body.length + (Lexer.stringLength quote after).2) := by
  obtain ⟨parts, rfl, all⟩ := inside
  induction parts with
  | nil => simp
  | cons part others induction =>
      have later := induction fun part member => all part (List.mem_cons_of_mem _ member)
      rw [List.flatten_cons, List.append_assoc]
      obtain ⟨char, rfl, other, plain, noNewline⟩ | ⟨char, rfl, noNewline⟩ :=
        (Pattern.mem_quotable_iff quote part).mp (all part List.mem_cons_self)
      · rw [List.singleton_append, string_length_plain _ _ _ plain, if_neg other, if_neg noNewline,
          later]
        simp only [List.length_append, List.length_singleton, Prod.mk.injEq, true_and]
        omega
      · rw [List.cons_append, List.singleton_append, Lexer.stringLength, if_neg noNewline, later]
        simp only [List.length_append, List.length_cons, List.length_nil, Prod.mk.injEq, true_and]
        omega

theorem string_length_at_quote (solid : quote ≠ '\\') (after : List Char) :
    Lexer.stringLength quote (quote :: after) = (true, 1) := by
  rw [string_length_plain _ _ _ solid, if_pos rfl]

theorem quotable_cons (part rest : List Char) (language : Language Char)
    (known : part ∈ Pattern.quotable quote) (inside : rest ∈ (Pattern.quotable quote)∗ * language) :
    part ++ rest ∈ (Pattern.quotable quote)∗ * language := by
  obtain ⟨_, ⟨parts, rfl, all⟩, last, ends, rfl⟩ := Language.mem_mul.mp inside
  rw [← List.append_assoc, ← List.flatten_cons]
  exact Language.append_mem_mul
    (Language.join_mem_kstar (List.forall_mem_cons.mpr ⟨known, all⟩)) ends

/-- What is taken after a quote may stand between quotes, and ends with a quote if the string is
closed. -/
theorem string_taken (text : List Char) :
    text.take (Lexer.stringLength quote text).2 ∈ (Pattern.quotable quote)∗ *
      if (Lexer.stringLength quote text).1 then Pattern.anyOf [quote] else 1 := by
  have nothing : [] ∈ (Pattern.quotable quote)∗ * 1 := by
    rw [mul_one]
    exact Language.nil_mem_kstar _
  fun_induction Lexer.stringLength quote text with
  | case1 => exact nothing
  | case2 => exact nothing
  | case3 rest => exact nothing
  | case4 escaped rest solid closed length found induction =>
      rw [found] at induction
      exact quotable_cons quote ['\\', escaped] _ _
        ((Pattern.mem_quotable_iff quote _).mpr (.inr ⟨escaped, rfl, solid⟩)) induction
  | case5 rest notAlone notEscape =>
      exact Language.append_mem_mul (Language.nil_mem_kstar _) ⟨quote, rfl, by simp⟩
  | case6 => exact nothing
  | case7 char rest notAlone notEscape other solid closed length found induction =>
      rw [found] at induction
      have plain : char ≠ '\\' := by
        rintro rfl
        cases rest with
        | nil => exact notAlone rfl rfl
        | cons escaped others => exact notEscape escaped others rfl rfl
      exact quotable_cons quote [char] _ _
        ((Pattern.mem_quotable_iff quote _).mpr (.inl ⟨char, rfl, other, plain, solid⟩)) induction

end Strings

section Tokens

variable (first : Char) (rest : List Char)

theorem token_at_word (starts : Lexer.isNameStart first = true) :
    Lexer.tokenAt first rest =
      (.ofWord (String.ofList (first :: rest.takeWhile Lexer.isNameChar)),
        (rest.takeWhile Lexer.isNameChar).length) := by
  have noNewline : first ≠ '\n' := by
    rintro rfl
    exact absurd starts (by decide)
  have noReturn : first ≠ '\r' := by
    rintro rfl
    exact absurd starts (by decide)
  rw [Lexer.tokenAt, if_neg noNewline, if_neg (by simp [noReturn]), if_pos starts]

theorem token_at_digit (digit : isDigit first = true) :
    Lexer.tokenAt first rest = (.number, Lexer.numberLength (first :: rest) - 1) := by
  obtain ⟨noName, noNewline, noReturn, _⟩ := digit_facts first digit
  rw [Lexer.tokenAt, if_neg noNewline, if_neg (by simp [noReturn]), if_neg (by simp [noName]),
    if_pos digit]

theorem token_at_quote (isQuote : first = '\x27' ∨ first = '\x22') :
    Lexer.tokenAt first rest =
      (if (Lexer.stringLength first rest).1 then .string else .error,
        (Lexer.stringLength first rest).2) := by
  rcases isQuote with rfl | rfl
  · rfl
  · rfl

theorem token_at_pair (second : Char) (kind : TokenKind)
    (known : TokenKind.ofPair? first second = some kind) :
    Lexer.tokenAt first (second :: rest) = (kind, 1) := by
  unfold TokenKind.ofPair? at known
  split at known <;> cases known <;> rfl

theorem token_at_mark (kind : TokenKind) (known : TokenKind.ofSingle? first = some kind) :
    Lexer.tokenAt first rest =
      match rest.head?.bind (TokenKind.ofPair? first) with
      | some longer => (longer, 1)
      | none => (kind, 0) := by
  unfold TokenKind.ofSingle? at known
  split at known <;> cases known <;> rfl

theorem of_word_matched (word : String) : TokenKind.ofWord word ≠ .error := by
  unfold TokenKind.ofWord
  split <;> decide

theorem of_pair_matched (second : Char) (kind : TokenKind)
    (known : TokenKind.ofPair? first second = some kind) : kind ≠ .error := by
  have spelling := spelling_of_pair first second kind known
  rintro rfl
  cases spelling

theorem of_single_matched (kind : TokenKind) (known : TokenKind.ofSingle? first = some kind) :
    kind ≠ .error := by
  have spelling := spelling_of_single first kind known
  rintro rfl
  cases spelling

theorem spelled_matched (kind : TokenKind) (text : List Char)
    (spelling : kind.spelling? = some (String.ofList text)) : text ∈ kind.pattern := by
  cases kind <;> first | exact spelling | cases spelling

theorem take_of_take_while (test : Char → Bool) :
    rest.take (rest.takeWhile test).length = rest.takeWhile test :=
  (List.prefix_iff_eq_take.mp (List.takeWhile_prefix test)).symm

theorem word_matched (starts : Lexer.isNameStart first = true) :
    first :: rest.takeWhile Lexer.isNameChar ∈
      (TokenKind.ofWord (String.ofList (first :: rest.takeWhile Lexer.isNameChar))).pattern := by
  by_cases free : TokenKind.ofWord
      (String.ofList (first :: rest.takeWhile Lexer.isNameChar)) = .name
  · rw [free]
    exact (Pattern.mem_name_iff _).mpr
      ⟨first, _, rfl, starts, fun char member => List.mem_takeWhile_imp member⟩
  · exact spelled_matched _ _ (spelling_of_word _ free)

theorem number_matched (digit : isDigit first = true) :
    first :: rest.take (Lexer.numberLength (first :: rest) - 1) ∈ Pattern.number := by
  have filled : Lexer.digitCount (first :: rest) ≠ 0 := by
    rw [Lexer.digitCount, List.takeWhile_cons_of_pos digit]
    exact Nat.succ_ne_zero _
  have positive : Lexer.numberLength (first :: rest) =
      Lexer.numberLength (first :: rest) - 1 + 1 := by
    rw [Lexer.numberLength]
    omega
  have number := taken_number (first :: rest) filled
  rwa [positive, List.take_succ_cons] at number

theorem string_matched (closed : (Lexer.stringLength first rest).1 = true) :
    first :: rest.take (Lexer.stringLength first rest).2 ∈ Pattern.closed first := by
  have taken := string_taken first rest
  rw [closed] at taken
  obtain ⟨body, inside, _, ⟨char, rfl, last⟩, same⟩ := Language.mem_mul.mp taken
  rw [← same, List.mem_singleton.mp (of_decide_eq_true last)]
  exact (Pattern.mem_closed_iff first _).mpr ⟨body, rfl, inside⟩

theorem opened_matched (opened : (Lexer.stringLength first rest).1 = false) :
    first :: rest.take (Lexer.stringLength first rest).2 ∈ Pattern.opened first := by
  have taken := string_taken first rest
  rw [opened, if_neg Bool.false_ne_true, mul_one] at taken
  exact (Pattern.mem_opened_iff first _).mpr ⟨_, rfl, taken⟩

theorem comment_matched : '#' :: rest.takeWhile (· ≠ '\n') ∈ Pattern.comment := by
  refine (Pattern.mem_comment_iff _).mpr ⟨_, rfl, fun member => ?_⟩
  have solid := List.mem_takeWhile_imp member
  simp at solid

inductive StartsWithToken : Char → List Char → TokenKind × Nat → Prop where
  | newline (rest : List Char) : StartsWithToken '\n' rest (.newline, 0)
  | returned (rest : List Char) : StartsWithToken '\r' ('\n' :: rest) (.newline, 1)
  | word (first : Char) (rest : List Char) (starts : Lexer.isNameStart first = true) :
      StartsWithToken first rest
        (.ofWord (String.ofList (first :: rest.takeWhile Lexer.isNameChar)),
          (rest.takeWhile Lexer.isNameChar).length)
  | number (first : Char) (rest : List Char) (digit : isDigit first = true) :
      StartsWithToken first rest (.number, Lexer.numberLength (first :: rest) - 1)
  | quoted (quote : Char) (rest : List Char) (isQuote : quote = '\x27' ∨ quote = '\x22') :
      StartsWithToken quote rest
        (if (Lexer.stringLength quote rest).1 then .string else .error,
          (Lexer.stringLength quote rest).2)
  | comment (rest : List Char) :
      StartsWithToken '#' rest (.comment, (rest.takeWhile (· ≠ '\n')).length)
  | pair (first second : Char) (rest : List Char) (kind : TokenKind)
      (known : TokenKind.ofPair? first second = some kind) :
      StartsWithToken first (second :: rest) (kind, 1)
  | single (first : Char) (rest : List Char) (kind : TokenKind)
      (known : TokenKind.ofSingle? first = some kind) : StartsWithToken first rest (kind, 0)
  | foreign (first : Char) (rest : List Char) (noQuote : ¬(first = '\x27' ∨ first = '\x22')) :
      StartsWithToken first rest (.error, 0)

theorem starts_with_token : StartsWithToken first rest (Lexer.tokenAt first rest) := by
  unfold Lexer.tokenAt
  split
  · rename_i isNewline
    rw [isNewline]
    exact .newline rest
  split
  · rename_i isReturn
    rw [Bool.and_eq_true, decide_eq_true_eq, decide_eq_true_eq] at isReturn
    obtain ⟨others, rfl⟩ := List.head?_eq_some_iff.mp isReturn.2
    rw [isReturn.1]
    exact .returned others
  split
  · rename_i starts
    exact .word first rest starts
  split
  · rename_i digit
    exact .number first rest digit
  split
  · rename_i isQuote
    rw [Bool.or_eq_true, decide_eq_true_eq, decide_eq_true_eq] at isQuote
    exact .quoted first rest isQuote
  rename_i noQuote
  rw [Bool.or_eq_true, decide_eq_true_eq, decide_eq_true_eq] at noQuote
  split
  · rename_i isMark
    rw [isMark]
    exact .comment rest
  split
  · rename_i kind known
    obtain ⟨second, head, pair⟩ := Option.bind_eq_some_iff.mp known
    obtain ⟨others, rfl⟩ := List.head?_eq_some_iff.mp head
    exact .pair first second others kind pair
  · cases single : TokenKind.ofSingle? first with
    | none => exact .foreign first rest noQuote
    | some kind => exact .single first rest kind single

theorem token_matched (matched : (Lexer.tokenAt first rest).1 ≠ .error) :
    first :: rest.take (Lexer.tokenAt first rest).2 ∈ (Lexer.tokenAt first rest).1.pattern := by
  have starts := starts_with_token first rest
  generalize Lexer.tokenAt first rest = token at starts matched ⊢
  cases starts with
  | newline => exact (Pattern.mem_line_end_iff _).mpr (.inl rfl)
  | returned => exact (Pattern.mem_line_end_iff _).mpr (.inr rfl)
  | word _ _ starts =>
      simp only [take_of_take_while]
      exact word_matched first rest starts
  | number _ _ digit => exact number_matched first rest digit
  | quoted _ _ isQuote =>
      cases closed : (Lexer.stringLength first rest).1 with
      | false => exact absurd (if_neg (by rw [closed]; exact Bool.false_ne_true)) matched
      | true =>
          have string := string_matched first rest closed
          rcases isQuote with rfl | rfl
          · exact .inl string
          · exact .inr string
  | comment =>
      simp only [take_of_take_while]
      exact comment_matched rest
  | pair _ second others kind known => exact spelled_matched _ _ (spelling_of_pair first second kind known)
  | single _ _ kind known => exact spelled_matched _ _ (spelling_of_single first kind known)
  | foreign => exact absurd rfl matched

end Tokens

/-- A token goes at least as far as a text of the pattern of a kind, and it is of that kind if it goes
no further, or the kind is that of names. -/
structure Reaches (token : TokenKind × Nat) (kind : TokenKind) (length : Nat) : Prop where
  matched : token.1 ≠ .error
  far : length ≤ token.2 + 1
  preferred : length = token.2 + 1 → kind = token.1 ∨ kind = .name

section Reaching

variable (first : Char) (more after : List Char)

theorem line_end_reaches (known : first :: more ∈ Pattern.lineEnd) :
    Reaches (Lexer.tokenAt first (more ++ after)) .newline (first :: more).length := by
  rcases (Pattern.mem_line_end_iff _).mp known with same | same
  · cases same
    change Reaches (.newline, 0) .newline 1
    exact ⟨by decide, Nat.le_refl 1, fun _ => .inl rfl⟩
  · cases same
    change Reaches (.newline, 1) .newline 2
    exact ⟨by decide, Nat.le_refl 2, fun _ => .inl rfl⟩

theorem word_reaches (kind : TokenKind) (known : first :: more ∈ Pattern.name)
    (isWord : kind = .name ∨ TokenKind.ofWord (String.ofList (first :: more)) = kind) :
    Reaches (Lexer.tokenAt first (more ++ after)) kind (first :: more).length := by
  obtain ⟨_, _, same, starts, letters⟩ := (Pattern.mem_name_iff _).mp known
  cases same
  rw [token_at_word first _ starts, List.takeWhile_append_of_pos letters]
  refine ⟨of_word_matched _, ?_, fun ends => ?_⟩
  · simp only [List.length_cons, List.length_append]
    omega
  · have nothing : after.takeWhile Lexer.isNameChar = [] := by
      simp only [List.length_cons, List.length_append] at ends
      exact List.eq_nil_of_length_eq_zero (by omega)
    rw [nothing, List.append_nil]
    exact isWord.symm.imp_left Eq.symm

theorem number_at_start (known : first :: more ∈ Pattern.number) : isDigit first = true := by
  obtain ⟨whole, part, power, same, digits, _⟩ := (Pattern.mem_number_iff _).mp known
  obtain ⟨filled, all⟩ := (Pattern.mem_digits_iff whole).mp digits
  obtain ⟨digit, others, rfl⟩ := List.exists_cons_of_ne_nil filled
  rw [(List.cons.inj same).1]
  exact all digit List.mem_cons_self

theorem number_token_reaches (known : first :: more ∈ Pattern.number) :
    Reaches (Lexer.tokenAt first (more ++ after)) .number (first :: more).length := by
  have far := number_reaches after _ known
  rw [token_at_digit first _ (number_at_start first more known)]
  rw [List.cons_append] at far
  exact ⟨by simp, by simp only; omega, fun _ => .inl rfl⟩

theorem string_reaches (quote : Char) (isQuote : quote = '\x27' ∨ quote = '\x22')
    (known : first :: more ∈ Pattern.closed quote) :
    Reaches (Lexer.tokenAt first (more ++ after)) .string (first :: more).length := by
  have solid : quote ≠ '\\' := by
    rintro rfl
    exact absurd isQuote (by decide)
  obtain ⟨body, same, inside⟩ := (Pattern.mem_closed_iff quote _).mp known
  cases same
  have length : Lexer.stringLength first (body ++ [first] ++ after) = (true, body.length + 1) := by
    rw [List.append_assoc, string_length_through first _ _ inside, List.singleton_append,
      string_length_at_quote first solid]
  rw [token_at_quote first _ isQuote, length]
  refine ⟨by simp, ?_, fun _ => .inl rfl⟩
  simp

theorem comment_reaches (known : first :: more ∈ Pattern.comment) :
    Reaches (Lexer.tokenAt first (more ++ after)) .comment (first :: more).length := by
  obtain ⟨body, same, oneLine⟩ := (Pattern.mem_comment_iff _).mp known
  cases same
  have all : ∀ char ∈ more, decide (char ≠ '\n') = true := by
    intro char member
    refine decide_eq_true ?_
    rintro rfl
    exact oneLine member
  have found : Lexer.tokenAt '#' (more ++ after) =
      (.comment, ((more ++ after).takeWhile (· ≠ '\n')).length) := rfl
  rw [found, List.takeWhile_append_of_pos all]
  refine ⟨by simp, ?_, fun _ => .inl rfl⟩
  simp only [List.length_cons, List.length_append]
  omega

theorem pair_reaches (second : Char) (kind : TokenKind)
    (known : TokenKind.ofPair? first second = some kind) :
    Reaches (Lexer.tokenAt first (second :: after)) kind 2 := by
  rw [token_at_pair first after second kind known]
  exact ⟨of_pair_matched first second kind known, Nat.le_refl 2, fun _ => .inl rfl⟩

theorem mark_reaches (kind : TokenKind) (known : TokenKind.ofSingle? first = some kind) :
    Reaches (Lexer.tokenAt first after) kind 1 := by
  rw [token_at_mark first after kind known]
  split
  · rename_i longer pair
    obtain ⟨second, _, found⟩ := Option.bind_eq_some_iff.mp pair
    exact ⟨of_pair_matched first second longer found, Nat.le_succ 1, nofun⟩
  · exact ⟨of_single_matched first kind known, Nat.le_refl 1, fun _ => .inl rfl⟩

end Reaching

theorem pattern_filled (kind : TokenKind) (text : List Char) (matched : text ∈ kind.pattern) :
    ∃ first more, text = first :: more := by
  apply List.exists_cons_of_ne_nil
  rintro rfl
  rcases pattern_cases kind [] matched with ⟨_, known⟩ | ⟨_, known⟩ | ⟨_, known⟩ |
    ⟨_, quote, _, known⟩ | ⟨_, known⟩ | spelling
  · simp [Pattern.mem_line_end_iff] at known
  · simp [Pattern.mem_name_iff] at known
  · obtain ⟨whole, part, power, same, digits, _⟩ := (Pattern.mem_number_iff _).mp known
    exact ((Pattern.mem_digits_iff whole).mp digits).1 (List.append_eq_nil_iff.mp same.symm).1
  · simp [Pattern.mem_closed_iff] at known
  · simp [Pattern.mem_comment_iff] at known
  · rcases spelling_cases kind _ spelling with ⟨_, known⟩ | ⟨_, _, chars, _⟩ | ⟨_, chars, _⟩
    · simp [Pattern.mem_name_iff] at known
    · simp at chars
    · simp at chars

/-- No beginning of a text that fits a pattern is longer than the token there. -/
theorem token_reaches (first : Char) (rest : List Char) (kind : TokenKind) (text : List Char)
    (matched : text ∈ kind.pattern) (starts : text <+: first :: rest) :
    Reaches (Lexer.tokenAt first rest) kind text.length := by
  obtain ⟨head, more, rfl⟩ := pattern_filled kind text matched
  obtain ⟨after, same⟩ := starts
  cases same
  change Reaches (Lexer.tokenAt first (more ++ after)) kind _
  rcases pattern_cases kind _ matched with ⟨rfl, known⟩ | ⟨rfl, known⟩ | ⟨rfl, known⟩ |
    ⟨rfl, quote, isQuote, known⟩ | ⟨rfl, known⟩ | spelling
  · exact line_end_reaches first more after known
  · exact word_reaches first more after .name known (.inl rfl)
  · exact number_token_reaches first more after known
  · exact string_reaches first more after quote isQuote known
  · exact comment_reaches first more after known
  · rcases spelling_cases kind _ spelling with ⟨isWord, known⟩ | ⟨_, _, chars, pair⟩ |
      ⟨_, chars, mark⟩
    · rw [String.toList_ofList] at known
      exact word_reaches first more after kind known (.inr isWord)
    · rw [String.toList_ofList] at chars
      cases chars
      exact pair_reaches first after _ kind pair
    · rw [String.toList_ofList] at chars
      cases chars
      exact mark_reaches first after kind mark

section Matches

variable (first : Char) (rest : List Char)

theorem blanks_start_skipped (solid : Lexer.isSkipped first = false) :
    ∀ skipped ∈ Pattern.blanks, ¬skipped <+: first :: rest := by
  intro skipped known starts
  obtain ⟨filled, all⟩ := (Pattern.mem_repeated_one_iff _ skipped).mp known
  obtain ⟨head, more, rfl⟩ := List.exists_cons_of_ne_nil filled
  have blank := all head List.mem_cons_self
  rw [(List.cons_prefix_cons.mp starts).1] at blank
  rw [Lexer.isSkipped] at solid
  simp at blank solid
  rcases blank with rfl | rfl | rfl <;> simp at solid

theorem taken_length :
    (first :: rest.take (Lexer.tokenAt first rest).2).length = (Lexer.tokenAt first rest).2 + 1 := by
  rw [List.length_cons, List.length_take_of_le (token_length_le first rest)]

theorem taken_starts : first :: rest.take (Lexer.tokenAt first rest).2 <+: first :: rest :=
  List.cons_prefix_cons.mpr ⟨rfl, List.take_prefix _ _⟩

/-- A token that is no error is the longest match. -/
theorem token_is_longest_match (solid : Lexer.isSkipped first = false)
    (matched : (Lexer.tokenAt first rest).1 ≠ .error) :
    LongestMatch (first :: rest) (Lexer.tokenAt first rest).1
      (first :: rest.take (Lexer.tokenAt first rest).2) where
  starts := taken_starts first rest
  matched := token_matched first rest matched
  longest other longer known starts := by
    rw [taken_length]
    exact (token_reaches first rest other longer known starts).far
  preferred other known :=
    (token_reaches first rest other _ known (taken_starts first rest)).preferred
      (taken_length first rest)
  noBlanks := blanks_start_skipped first rest solid

/-- An error token is a string that is not closed, or one character. -/
theorem token_at_error (failed : (Lexer.tokenAt first rest).1 = .error) :
    ((first = '\x27' ∨ first = '\x22') ∧ (Lexer.stringLength first rest).1 = false ∧
      (Lexer.tokenAt first rest).2 = (Lexer.stringLength first rest).2) ∨
    (¬(first = '\x27' ∨ first = '\x22') ∧ (Lexer.tokenAt first rest).2 = 0) := by
  have starts := starts_with_token first rest
  generalize Lexer.tokenAt first rest = token at starts failed ⊢
  cases starts with
  | newline => cases failed
  | returned => cases failed
  | word => exact absurd failed (of_word_matched _)
  | number => cases failed
  | quoted _ _ isQuote =>
      cases closed : (Lexer.stringLength first rest).1 with
      | false => exact .inl ⟨isQuote, rfl, rfl⟩
      | true =>
          rw [closed] at failed
          cases failed
  | comment => cases failed
  | pair _ second others kind known => exact absurd failed (of_pair_matched first second kind known)
  | single _ _ kind known => exact absurd failed (of_single_matched first kind known)
  | foreign _ _ noQuote => exact .inr ⟨noQuote, rfl⟩

theorem error_is_no_match (solid : Lexer.isSkipped first = false)
    (failed : (Lexer.tokenAt first rest).1 = .error) :
    NoMatch (first :: rest) (first :: rest.take (Lexer.tokenAt first rest).2) where
  starts := taken_starts first rest
  unmatched kind other known starts := (token_reaches first rest kind other known starts).matched failed
  noBlanks := blanks_start_skipped first rest solid
  extent := by
    obtain ⟨isQuote, opened, length⟩ | ⟨noQuote, length⟩ := token_at_error first rest failed
    · refine .inr ⟨first, isQuote, taken_starts first rest, ?_, ?_⟩
      · rw [length]
        exact opened_matched first rest opened
      · intro other known starts
        obtain ⟨body, rfl, inside⟩ := (Pattern.mem_opened_iff first other).mp known
        obtain ⟨after, same⟩ := (List.cons_prefix_cons.mp starts).2
        have through := string_length_through first body after inside
        rw [same] at through
        rw [taken_length, length, through, List.length_cons]
        simp only
        omega
    · rw [not_or] at noQuote
      exact .inl ⟨first, by rw [length, List.take_zero], noQuote⟩

end Matches

end ScriptWasm
