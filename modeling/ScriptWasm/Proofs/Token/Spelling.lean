import Mathlib.Data.List.TakeWhile
import ScriptWasm.Proofs.Program.Readable
import ScriptWasm.Proofs.Text.Spans
import ScriptWasm.Token.Layout

/-!
What tokens look like. Reserved words, operators and punctuation have one spelling each, and a name
is a word that is not reserved. The layout adds tokens of its own, and after an indent the line goes
on with a token that was there.
-/

namespace ScriptWasm

set_option autoImplicit false

def TokenKind.spelling? : TokenKind → Option String
  | defWord => some "def"
  | classWord => some "class"
  | ifWord => some "if"
  | elifWord => some "elif"
  | elseWord => some "else"
  | whileWord => some "while"
  | returnWord => some "return"
  | passWord => some "pass"
  | breakWord => some "break"
  | continueWord => some "continue"
  | trueWord => some "True"
  | falseWord => some "False"
  | noneWord => some "None"
  | power => some "**"
  | floorDivide => some "//"
  | equal => some "=="
  | notEqual => some "!="
  | lessEqual => some "<="
  | greaterEqual => some ">="
  | arrow => some "->"
  | plus => some "+"
  | minus => some "-"
  | star => some "*"
  | slash => some "/"
  | percent => some "%"
  | less => some "<"
  | greater => some ">"
  | assign => some "="
  | colon => some ":"
  | dot => some "."
  | comma => some ","
  | leftParen => some "("
  | rightParen => some ")"
  | _ => none

structure TokenKind.Spells (kind : TokenKind) (text : String) : Prop where
  spelled : ∀ word, kind.spelling? = some word → text = word
  named : kind = .name → IsName text

theorem spells_free (kind : TokenKind) (text : String) (free : kind.spelling? = none)
    (unnamed : kind ≠ .name) : kind.Spells text where
  spelled word spelling := by
    rw [free] at spelling
    cases spelling
  named isName := absurd isName unnamed

theorem spelling_of_word (word : String) (reserved : TokenKind.ofWord word ≠ .name) :
    (TokenKind.ofWord word).spelling? = some word := by
  unfold TokenKind.ofWord
  split <;> first | rfl | (exfalso; apply reserved; unfold TokenKind.ofWord; split <;> trivial)

theorem spelling_of_pair (first second : Char) (kind : TokenKind)
    (known : TokenKind.ofPair? first second = some kind) :
    kind.spelling? = some (String.ofList [first, second]) := by
  unfold TokenKind.ofPair? at known
  split at known <;> cases known <;> rfl

theorem spelling_of_single (char : Char) (kind : TokenKind)
    (known : TokenKind.ofSingle? char = some kind) :
    kind.spelling? = some (String.ofList [char]) := by
  unfold TokenKind.ofSingle? at known
  split at known <;> cases known <;> rfl

theorem spells_of_spelling (kind : TokenKind) (text : String)
    (spelling : kind.spelling? = some text) : kind.Spells text where
  spelled word same := by
    rw [spelling] at same
    exact Option.some.inj same
  named isName := by
    rw [isName] at spelling
    cases spelling

theorem token_at_spells (first : Char) (rest : List Char) :
    (Lexer.tokenAt first rest).1.Spells
      (String.ofList (first :: rest.take (Lexer.tokenAt first rest).2)) := by
  -- The branches of the lexer in its order. Those for numbers, strings and comments leave the text
  -- free.
  unfold Lexer.tokenAt
  split
  · exact spells_free _ _ rfl (by simp)
  split
  · exact spells_free _ _ rfl (by simp)
  split
  · rename_i starts
    have taken : rest.take (rest.takeWhile Lexer.isNameChar).length =
        rest.takeWhile Lexer.isNameChar :=
      (List.prefix_iff_eq_take.mp (List.takeWhile_prefix _)).symm
    rw [taken]
    by_cases free : TokenKind.ofWord
        (String.ofList (first :: rest.takeWhile Lexer.isNameChar)) = .name
    · refine ⟨fun word spelling => ?_, fun _ => ⟨⟨first, _, String.toList_ofList, starts, ?_⟩, free⟩⟩
      · simp only [free] at spelling
        cases spelling
      · intro char member
        exact List.mem_takeWhile_imp member
    · exact spells_of_spelling _ _ (spelling_of_word _ free)
  split
  · exact spells_free _ _ rfl (by simp)
  split
  · simp only
    split
    · exact spells_free _ _ rfl (by simp)
    · exact spells_free _ _ rfl (by simp)
  split
  · exact spells_free _ _ rfl (by simp)
  split
  · rename_i kind found
    obtain ⟨second, head, known⟩ := Option.bind_eq_some_iff.mp found
    obtain ⟨tail, rfl⟩ : ∃ tail, rest = second :: tail := by
      cases rest with
      | nil => cases head
      | cons other tail =>
          cases head
          exact ⟨tail, rfl⟩
    exact spells_of_spelling _ _ (spelling_of_pair first second kind known)
  · rw [List.take_zero]
    cases known : TokenKind.ofSingle? first with
    | none => exact spells_free _ _ rfl (by decide)
    | some kind => exact spells_of_spelling _ _ (spelling_of_single first kind known)

structure Lexeme.Sound (source : List Char) (lexeme : Lexeme) : Prop where
  faithful : lexeme.text = lexeme.span.textIn source
  spells : lexeme.kind.Spells lexeme.text

theorem tokens_from_sound (source before text : List Char) (whole : source = before ++ text) :
    ∀ token ∈ Lexer.tokensFrom (byteLength before) text, (token.lexeme source).Sound source := by
  generalize start : byteLength before = offset
  fun_induction Lexer.tokensFrom offset text generalizing before with
  | case1 offset => exact fun _ impossible => by cases impossible
  | case2 offset first rest skipped induction =>
      apply induction (before ++ [first])
      · rw [whole, List.append_assoc]
        rfl
      · rw [byte_length_append, start, byteLength, byteLength, Nat.add_zero]
  | case3 offset first rest solid kind more found stop induction =>
      have cut : first :: rest = (first :: rest.take more) ++ rest.drop more := by
        rw [List.cons_append, List.take_append_drop]
      have stopAt : stop = byteLength (before ++ (first :: rest.take more)) := by
        rw [byte_length_append, start]
      intro token member
      rcases List.mem_cons.mp member with rfl | later
      · refine ⟨rfl, ?_⟩
        have text : (Span.mk offset stop).textIn source = String.ofList (first :: rest.take more) := by
          rw [whole, cut, ← List.append_assoc, ← start, stopAt, text_in_middle]
        have spells := token_at_spells first rest
        rw [found] at spells
        simp only [Token.lexeme, text]
        exact spells
      · refine induction (before ++ (first :: rest.take more)) ?_ stopAt.symm token later
        rw [whole, List.append_assoc, ← cut]

theorem raw_tokens_sound (source : List Char) :
    ∀ token ∈ rawTokens source, (token.lexeme source).Sound source :=
  tokens_from_sound source [] source rfl

end ScriptWasm
