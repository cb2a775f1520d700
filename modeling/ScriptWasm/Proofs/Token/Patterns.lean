import Mathlib.Computability.Language
import ScriptWasm.Proofs.Token.Spelling

/-!
The patterns of tokens, as languages over the characters. A word, an operator or a mark of one
spelling has that spelling for its pattern, and a kind of token that only the layout gives has none.
-/

namespace ScriptWasm

set_option autoImplicit false

open Computability

namespace Pattern

def one (test : Char → Bool) : Language Char :=
  {text | ∃ char, text = [char] ∧ test char = true}

def range (low high : Char) : Language Char :=
  one fun char => low ≤ char && char ≤ high

def anyOf (chars : List Char) : Language Char :=
  one fun char => char ∈ chars

def noneOf (chars : List Char) : Language Char :=
  one fun char => char ∉ chars

def optional (language : Language Char) : Language Char :=
  1 + language

def repeated (language : Language Char) : Language Char :=
  language * language∗

def letter : Language Char :=
  range 'A' 'Z' + range 'a' 'z' + anyOf ['_']

def digit : Language Char :=
  range '0' '9'

def lineEnd : Language Char :=
  optional (anyOf ['\r']) * anyOf ['\n']

def name : Language Char :=
  letter * (letter + digit)∗

def fraction : Language Char :=
  anyOf ['.'] * repeated digit

def exponent : Language Char :=
  anyOf ['e', 'E'] * (optional (anyOf ['+', '-']) * repeated digit)

def number : Language Char :=
  repeated digit * (optional fraction * optional exponent)

/-- What may stand between quotes: any character but the quote, a backslash and a newline, or a
backslash with any character but a newline. -/
def quotable (quote : Char) : Language Char :=
  noneOf [quote, '\\', '\n'] + anyOf ['\\'] * noneOf ['\n']

/-- A string up to its closing quote. -/
def opened (quote : Char) : Language Char :=
  anyOf [quote] * (quotable quote)∗

def closed (quote : Char) : Language Char :=
  opened quote * anyOf [quote]

def comment : Language Char :=
  anyOf ['#'] * (noneOf ['\n'])∗

def blanks : Language Char :=
  repeated (anyOf [' ', '\t', '\x0c'])

end Pattern

def TokenKind.pattern : TokenKind → Language Char
  | newline => Pattern.lineEnd
  | name => Pattern.name
  | number => Pattern.number
  | string => Pattern.closed '\x27' + Pattern.closed '\x22'
  | comment => Pattern.comment
  | kind => {text | kind.spelling? = some (String.ofList text)}

namespace Pattern

section Membership

variable (test other : Char → Bool) (chars : List Char) (language : Language Char) (text : List Char)

theorem mem_one_mul_iff :
    text ∈ one test * language ↔
      ∃ first rest, text = first :: rest ∧ test first = true ∧ rest ∈ language := by
  rw [Language.mem_mul]
  constructor
  · rintro ⟨_, ⟨first, rfl, passes⟩, rest, inside, rfl⟩
    exact ⟨first, rest, rfl, passes, inside⟩
  · rintro ⟨first, rest, rfl, passes, inside⟩
    exact ⟨[first], ⟨first, rfl, passes⟩, rest, inside, rfl⟩

theorem mem_any_of_mul_iff :
    text ∈ anyOf chars * language ↔
      ∃ first rest, text = first :: rest ∧ first ∈ chars ∧ rest ∈ language := by
  rw [anyOf, mem_one_mul_iff]
  simp only [decide_eq_true_eq]

theorem mem_star_one_iff : text ∈ (one test)∗ ↔ ∀ char ∈ text, test char = true := by
  constructor
  · rintro ⟨parts, rfl, all⟩ char member
    obtain ⟨part, there, inside⟩ := List.mem_flatten.mp member
    obtain ⟨single, rfl, passes⟩ := all part there
    rwa [List.mem_singleton.mp inside]
  · intro all
    refine ⟨_, (List.flatMap_singleton' text).symm, fun part member => ?_⟩
    obtain ⟨char, there, rfl⟩ := List.mem_map.mp member
    exact ⟨char, rfl, all char there⟩

theorem one_add_one : one test + one other = one fun char => test char || other char := by
  apply Language.ext
  intro text
  rw [Language.mem_add]
  constructor
  · rintro (⟨char, rfl, passes⟩ | ⟨char, rfl, passes⟩)
    · exact ⟨char, rfl, by simp [passes]⟩
    · exact ⟨char, rfl, by simp [passes]⟩
  · rintro ⟨char, rfl, passes⟩
    rw [Bool.or_eq_true] at passes
    exact passes.imp (fun here => ⟨char, rfl, here⟩) fun there => ⟨char, rfl, there⟩

theorem mem_repeated_one_iff :
    text ∈ repeated (one test) ↔ text ≠ [] ∧ ∀ char ∈ text, test char = true := by
  rw [repeated, mem_one_mul_iff]
  constructor
  · rintro ⟨first, rest, rfl, passes, inside⟩
    rw [mem_star_one_iff] at inside
    exact ⟨List.cons_ne_nil _ _, List.forall_mem_cons.mpr ⟨passes, inside⟩⟩
  · rintro ⟨filled, all⟩
    obtain ⟨first, rest, rfl⟩ := List.exists_cons_of_ne_nil filled
    obtain ⟨passes, inside⟩ := List.forall_mem_cons.mp all
    exact ⟨first, rest, rfl, passes, (mem_star_one_iff test rest).mpr inside⟩

theorem mem_optional_iff : text ∈ optional language ↔ text = [] ∨ text ∈ language :=
  Iff.rfl

end Membership

theorem letter_eq : letter = one Lexer.isNameStart := by
  rw [letter, range, range, anyOf, one_add_one, one_add_one]
  congr 1
  funext char
  rw [Lexer.isNameStart]
  simp [Bool.or_comm]

theorem digit_eq : digit = one isDigit :=
  rfl

theorem mem_name_iff (text : List Char) :
    text ∈ name ↔ ∃ first rest, text = first :: rest ∧ Lexer.isNameStart first = true ∧
      ∀ char ∈ rest, Lexer.isNameChar char = true := by
  have letters : letter + digit = one Lexer.isNameChar := by
    rw [letter_eq, digit_eq, one_add_one]
    rfl
  rw [name, letters, letter_eq, mem_one_mul_iff]
  simp only [mem_star_one_iff]

theorem mem_digits_iff (text : List Char) :
    text ∈ repeated digit ↔ text ≠ [] ∧ ∀ char ∈ text, isDigit char = true :=
  mem_repeated_one_iff isDigit text

theorem mem_line_end_iff (text : List Char) :
    text ∈ lineEnd ↔ text = ['\n'] ∨ text = ['\r', '\n'] := by
  have newline : ∀ text, text ∈ anyOf ['\n'] ↔ text = ['\n'] := by
    intro text
    constructor
    · rintro ⟨char, rfl, isNewline⟩
      simpa using isNewline
    · rintro rfl
      exact ⟨'\n', rfl, by decide⟩
  rw [lineEnd, optional, add_mul, one_mul, Language.mem_add, mem_any_of_mul_iff, newline]
  simp only [newline, List.mem_singleton, exists_eq_right_right, exists_eq_right]

theorem mem_fraction_iff (text : List Char) :
    text ∈ fraction ↔ ∃ digits, text = '.' :: digits ∧ digits ∈ repeated digit := by
  rw [fraction, mem_any_of_mul_iff]
  simp

theorem mem_exponent_iff (text : List Char) :
    text ∈ exponent ↔ ∃ mark sign digits, text = mark :: (sign ++ digits) ∧
      (mark = 'e' ∨ mark = 'E') ∧ (sign = [] ∨ sign = ['+'] ∨ sign = ['-']) ∧
      digits ∈ repeated digit := by
  have signs : ∀ text, text ∈ optional (anyOf ['+', '-']) ↔
      text = [] ∨ text = ['+'] ∨ text = ['-'] := by
    intro text
    rw [mem_optional_iff]
    apply or_congr_right
    constructor
    · rintro ⟨char, rfl, isSign⟩
      simpa using isSign
    · rintro (rfl | rfl)
      · exact ⟨'+', rfl, by decide⟩
      · exact ⟨'-', rfl, by decide⟩
  rw [exponent, mem_any_of_mul_iff]
  constructor
  · rintro ⟨mark, rest, rfl, isMark, inside⟩
    obtain ⟨sign, known, digits, filled, rfl⟩ := Language.mem_mul.mp inside
    exact ⟨mark, sign, digits, rfl, by simpa using isMark, (signs sign).mp known, filled⟩
  · rintro ⟨mark, sign, digits, rfl, isMark, known, filled⟩
    exact ⟨mark, sign ++ digits, rfl, by simpa using isMark,
      Language.append_mem_mul ((signs sign).mpr known) filled⟩

theorem mem_number_iff (text : List Char) :
    text ∈ number ↔ ∃ whole part power, text = whole ++ (part ++ power) ∧
      whole ∈ repeated digit ∧ (part = [] ∨ part ∈ fraction) ∧
      (power = [] ∨ power ∈ exponent) := by
  rw [number, Language.mem_mul]
  constructor
  · rintro ⟨whole, digits, rest, inside, rfl⟩
    obtain ⟨part, known, power, knownPower, rfl⟩ := Language.mem_mul.mp inside
    exact ⟨whole, part, power, rfl, digits, known, knownPower⟩
  · rintro ⟨whole, part, power, rfl, digits, known, knownPower⟩
    exact ⟨whole, digits, _, Language.append_mem_mul known knownPower, rfl⟩

theorem mem_quotable_iff (quote : Char) (text : List Char) :
    text ∈ quotable quote ↔
      (∃ char, text = [char] ∧ char ≠ quote ∧ char ≠ '\\' ∧ char ≠ '\n') ∨
        ∃ char, text = ['\\', char] ∧ char ≠ '\n' := by
  rw [quotable, Language.mem_add, mem_any_of_mul_iff]
  apply or_congr
  · constructor
    · rintro ⟨char, rfl, plain⟩
      exact ⟨char, rfl, by simpa using plain⟩
    · rintro ⟨char, rfl, plain⟩
      exact ⟨char, rfl, by simpa using plain⟩
  · constructor
    · rintro ⟨first, rest, rfl, isEscape, char, rfl, solid⟩
      rw [List.mem_singleton.mp isEscape]
      exact ⟨char, rfl, by simpa using solid⟩
    · rintro ⟨char, rfl, solid⟩
      exact ⟨'\\', [char], rfl, by simp, char, rfl, by simpa using solid⟩

theorem mem_opened_iff (quote : Char) (text : List Char) :
    text ∈ opened quote ↔ ∃ body, text = quote :: body ∧ body ∈ (quotable quote)∗ := by
  rw [opened, mem_any_of_mul_iff]
  simp

theorem mem_closed_iff (quote : Char) (text : List Char) :
    text ∈ closed quote ↔
      ∃ body, text = quote :: (body ++ [quote]) ∧ body ∈ (quotable quote)∗ := by
  rw [closed, Language.mem_mul]
  constructor
  · rintro ⟨start, isOpened, _, ⟨char, rfl, isQuote⟩, rfl⟩
    obtain ⟨body, rfl, inside⟩ := (mem_opened_iff quote start).mp isOpened
    rw [List.mem_singleton.mp (of_decide_eq_true isQuote)]
    exact ⟨body, rfl, inside⟩
  · rintro ⟨body, rfl, inside⟩
    exact ⟨quote :: body, (mem_opened_iff quote _).mpr ⟨body, rfl, inside⟩, [quote],
      ⟨quote, rfl, by simp⟩, rfl⟩

theorem mem_comment_iff (text : List Char) :
    text ∈ comment ↔ ∃ body, text = '#' :: body ∧ '\n' ∉ body := by
  rw [comment, noneOf, mem_any_of_mul_iff]
  constructor
  · rintro ⟨first, body, rfl, isMark, inside⟩
    rw [mem_star_one_iff] at inside
    rw [List.mem_singleton.mp isMark]
    exact ⟨body, rfl, fun member => by simpa using inside '\n' member⟩
  · rintro ⟨body, rfl, oneLine⟩
    refine ⟨'#', body, rfl, by simp, (mem_star_one_iff _ body).mpr fun char member => ?_⟩
    simp only [List.mem_singleton, decide_eq_true_eq]
    rintro rfl
    exact oneLine member

end Pattern

/-- A word of a pattern is a line end, a name, a number, a string, a comment, or the one spelling of
its kind. -/
theorem pattern_cases (kind : TokenKind) (text : List Char) (matched : text ∈ kind.pattern) :
    (kind = .newline ∧ text ∈ Pattern.lineEnd) ∨ (kind = .name ∧ text ∈ Pattern.name) ∨
      (kind = .number ∧ text ∈ Pattern.number) ∨
      (kind = .string ∧ ∃ quote, (quote = '\x27' ∨ quote = '\x22') ∧
        text ∈ Pattern.closed quote) ∨
      (kind = .comment ∧ text ∈ Pattern.comment) ∨
      kind.spelling? = some (String.ofList text) := by
  cases kind with
  | newline => exact .inl ⟨rfl, matched⟩
  | name => exact .inr (.inl ⟨rfl, matched⟩)
  | number => exact .inr (.inr (.inl ⟨rfl, matched⟩))
  | string =>
      rcases matched with single | double
      · exact .inr (.inr (.inr (.inl ⟨rfl, _, .inl rfl, single⟩)))
      · exact .inr (.inr (.inr (.inl ⟨rfl, _, .inr rfl, double⟩)))
  | comment => exact .inr (.inr (.inr (.inr (.inl ⟨rfl, matched⟩))))
  | _ => exact .inr (.inr (.inr (.inr (.inr matched))))

theorem spelling_cases (kind : TokenKind) (word : String) (spelling : kind.spelling? = some word) :
    (TokenKind.ofWord word = kind ∧ word.toList ∈ Pattern.name) ∨
      (∃ first second, word.toList = [first, second] ∧
        TokenKind.ofPair? first second = some kind) ∨
      ∃ char, word.toList = [char] ∧ TokenKind.ofSingle? char = some kind := by
  have reserved : ∀ word : String, (∃ first rest, word.toList = first :: rest ∧
      Lexer.isNameStart first = true ∧ rest.all Lexer.isNameChar = true) →
      word.toList ∈ Pattern.name := by
    rintro word ⟨first, rest, chars, starts, letters⟩
    exact (Pattern.mem_name_iff _).mpr ⟨first, rest, chars, starts, List.all_eq_true.mp letters⟩
  cases kind <;> cases spelling
  all_goals first
    | exact .inl ⟨rfl, reserved _ ⟨_, _, rfl, by decide, by decide⟩⟩
    | exact .inr (.inl ⟨_, _, rfl, rfl⟩)
    | exact .inr (.inr ⟨_, rfl, rfl⟩)

end ScriptWasm
