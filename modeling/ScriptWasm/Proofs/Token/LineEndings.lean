import ScriptWasm.Proofs.Token.LongestMatch
import ScriptWasm.Proofs.Token.Padding

/-!
Carriage returns at the ends of lines. No token but a comment can end with a carriage return, so one
at the end of a line is taken by the newline after it, by a comment, or by an error that is there
without it as well. The lines have the same tokens but for their newlines, or both have an error.
-/

namespace ScriptWasm

set_option autoImplicit false

def withReturns (source : List Char) : List Char :=
  source.flatMap fun char => if char = '\n' then ['\r', '\n'] else [char]

section Patterns

theorem name_has_no_return (text : List Char) (known : text ∈ Pattern.name) : '\r' ∉ text := by
  obtain ⟨first, rest, rfl, starts, letters⟩ := (Pattern.mem_name_iff text).mp known
  intro member
  rcases List.mem_cons.mp member with rfl | inside
  · exact absurd starts (by decide)
  · exact absurd (letters _ inside) (by decide)

theorem digits_have_no_return (text : List Char)
    (known : text ∈ Pattern.repeated Pattern.digit) : '\r' ∉ text := by
  intro member
  exact absurd (((Pattern.mem_digits_iff text).mp known).2 _ member) (by decide)

theorem number_has_no_return (text : List Char) (known : text ∈ Pattern.number) : '\r' ∉ text := by
  obtain ⟨whole, part, power, rfl, digits, fractional, exponential⟩ :=
    (Pattern.mem_number_iff text).mp known
  have inPart : '\r' ∉ part := by
    rcases fractional with rfl | fraction
    · exact List.not_mem_nil
    · obtain ⟨others, rfl, inside⟩ := (Pattern.mem_fraction_iff part).mp fraction
      simpa using digits_have_no_return others inside
  have inPower : '\r' ∉ power := by
    rcases exponential with rfl | exponent
    · exact List.not_mem_nil
    · obtain ⟨mark, sign, others, rfl, isMark, signed, inside⟩ :=
        (Pattern.mem_exponent_iff power).mp exponent
      have later := digits_have_no_return others inside
      rcases isMark with rfl | rfl <;> rcases signed with rfl | rfl | rfl <;> simpa using later
  simp [digits_have_no_return whole digits, inPart, inPower]

/-- Only a comment can end with a carriage return. -/
theorem return_ends_comment (kind : TokenKind) (text : List Char)
    (matched : text ++ ['\r'] ∈ kind.pattern) : kind = .comment := by
  have member : '\r' ∈ text ++ ['\r'] := by simp
  rcases pattern_cases kind _ matched with ⟨_, known⟩ | ⟨_, known⟩ | ⟨_, known⟩ |
    ⟨_, quote, isQuote, known⟩ | ⟨isComment, _⟩ | spelling
  · rcases (Pattern.mem_line_end_iff _).mp known with same | same
    · have last := congrArg List.getLast? same
      simp at last
    · have last := congrArg List.getLast? same
      simp at last
  · exact absurd member (name_has_no_return _ known)
  · exact absurd member (number_has_no_return _ known)
  · obtain ⟨body, same, _⟩ := (Pattern.mem_closed_iff quote _).mp known
    have last := congrArg List.getLast? same
    rw [← List.cons_append] at last
    simp only [List.getLast?_concat, Option.some.injEq] at last
    rw [← last] at isQuote
    exact absurd isQuote (by decide)
  · exact isComment
  · rcases spelling_cases kind _ spelling with ⟨_, known⟩ | ⟨first, second, chars, pair⟩ |
      ⟨char, chars, mark⟩
    · rw [String.toList_ofList] at known
      exact absurd member (name_has_no_return _ known)
    · rw [String.toList_ofList] at chars
      have last := congrArg List.getLast? chars
      simp only [List.getLast?_concat, List.getLast?_cons_cons, List.getLast?_singleton,
        Option.some.injEq] at last
      have none : TokenKind.ofPair? first '\r' = none := by
        unfold TokenKind.ofPair?
        split <;> first | rfl | (rename_i same; cases same)
      rw [← last, none] at pair
      cases pair
    · rw [String.toList_ofList] at chars
      have last := congrArg List.getLast? chars
      simp only [List.getLast?_concat, List.getLast?_singleton, Option.some.injEq] at last
      rw [← last] at mark
      cases mark

end Patterns

section Lines

variable (first : Char) (rest : List Char)

/-- What a carriage return at the end changes about a token: nothing, or it goes on a comment, or the
token is an error with it and without it. -/
theorem token_before_return :
    ((Lexer.tokenAt first (rest ++ ['\r'])).1 = .error ∧ (Lexer.tokenAt first rest).1 = .error) ∨
    (Lexer.tokenAt first (rest ++ ['\r']) = (.comment, rest.length + 1) ∧
      Lexer.tokenAt first rest = (.comment, rest.length)) ∨
    Lexer.tokenAt first (rest ++ ['\r']) = Lexer.tokenAt first rest := by
  have longer (matched : (Lexer.tokenAt first rest).1 ≠ .error) :=
    token_reaches first (rest ++ ['\r']) _ _ (token_matched first rest matched)
      ((taken_starts first rest).trans (List.prefix_append (first :: rest) ['\r']))
  by_cases failed : (Lexer.tokenAt first (rest ++ ['\r'])).1 = .error
  · refine .inl ⟨failed, ?_⟩
    by_contra matched
    exact (longer matched).matched failed
  have taken := token_matched first (rest ++ ['\r']) failed
  have most := token_length_le first (rest ++ ['\r'])
  rw [List.length_append, List.length_singleton] at most
  -- A token over the carriage return is a comment. Otherwise each text has the token of the other
  -- one.
  by_cases whole : (Lexer.tokenAt first (rest ++ ['\r'])).2 = rest.length + 1
  · rw [whole, List.take_of_length_le (by simp), ← List.cons_append] at taken
    have isComment := return_ends_comment _ (first :: rest) taken
    rw [isComment] at taken
    obtain ⟨body, same, oneLine⟩ := (Pattern.mem_comment_iff _).mp taken
    cases same
    have all := take_one_line rest fun member => oneLine (List.mem_append_left _ member)
    have alone : Lexer.tokenAt '#' rest = (.comment, (rest.takeWhile (· ≠ '\n')).length) := rfl
    exact .inr (.inl ⟨Prod.ext isComment whole, by rw [alone, all]⟩)
  · rw [List.take_append_of_le_length (by omega)] at taken
    have back := token_reaches first rest _ _ taken
      (List.cons_prefix_cons.mpr ⟨rfl, List.take_prefix _ _⟩)
    have forth := longer back.matched
    rw [List.length_cons, List.length_take_of_le (by omega)] at back
    rw [taken_length] at forth
    have length : (Lexer.tokenAt first (rest ++ ['\r'])).2 = (Lexer.tokenAt first rest).2 :=
      Nat.le_antisymm (Nat.le_of_succ_le_succ back.far) (Nat.le_of_succ_le_succ forth.far)
    refine .inr (.inr (Prod.ext ?_ length))
    -- Two matches of one length are of one kind, unless both are names.
    rcases back.preferred (by rw [length]) with same | isName
    · exact same
    · rcases forth.preferred (by rw [length]) with same | isNameToo
      · exact same.symm
      · rw [isName, isNameToo]

def FaultyTokens (tokens : List Token) : Prop :=
  ∃ token ∈ tokens, token.kind = .error

/-- A line has the same tokens but for its newline and comments whether a carriage return stands at
its end or not, unless it has an error both ways. -/
theorem tokens_of_returned_line (offset : Nat) (line : List Char) (noReturn : '\r' ∉ line) :
    (FaultyTokens (Lexer.tokensFrom offset (line ++ ['\n'])) ∧
      FaultyTokens (Lexer.tokensFrom offset (line ++ ['\r', '\n']))) ∨
    ∃ span other,
      (Lexer.tokensFrom offset (line ++ ['\n'])).filter (·.kind ≠ .comment) =
        (Lexer.tokensFrom offset line).filter (·.kind ≠ .comment) ++ [⟨.newline, span⟩] ∧
      (Lexer.tokensFrom offset (line ++ ['\r', '\n'])).filter (·.kind ≠ .comment) =
        (Lexer.tokensFrom offset line).filter (·.kind ≠ .comment) ++ [⟨.newline, other⟩] := by
  fun_induction Lexer.tokensFrom offset line with
  | case1 offset =>
      rw [List.nil_append, List.nil_append, tokens_of_newline, tokens_of_return, Lexer.tokensFrom]
      exact .inr ⟨_, _, rfl, rfl⟩
  | case2 offset first rest skipped induction =>
      rw [List.cons_append, List.cons_append, tokens_from_skipped _ _ _ skipped,
        tokens_from_skipped _ _ _ skipped]
      exact induction fun member => noReturn (List.mem_cons_of_mem _ member)
  | case3 offset first rest solid kind more found stop induction =>
      have noReturnFirst : first ≠ '\r' := fun same => noReturn (by simp [same])
      have split : first :: rest ++ ['\r', '\n'] = first :: (rest ++ ['\r']) ++ ['\n'] := by simp
      have plain := tokens_from_inside offset first rest [] solid kind more found
        (fun ends => noReturnFirst ends.1)
      have returned := fun kind more found => tokens_from_inside offset first (rest ++ ['\r']) []
        solid kind more found (fun ends => noReturnFirst ends.1)
      rw [split, plain]
      -- The first token fails with and without the carriage return, or is a comment, or does not
      -- see it.
      rcases token_before_return first rest with ⟨failed, failedAlone⟩ | ⟨comment, alone⟩ | same
      · rw [found] at failedAlone
        rw [returned _ _ rfl]
        exact .inl ⟨⟨_, List.mem_cons_self, failedAlone⟩, ⟨_, List.mem_cons_self, failed⟩⟩
      · -- The comment takes all that is left of the line, the carriage return included.
        obtain ⟨rfl, rfl⟩ := Prod.mk.inj (found.symm.trans alone)
        rw [returned _ _ comment, List.drop_length, List.drop_of_length_le (by simp),
          List.nil_append, tokens_of_newline, tokens_of_newline, Lexer.tokensFrom]
        exact .inr ⟨_, _, rfl, rfl⟩
      · have short := token_length_le first rest
        rw [found] at same short
        rw [returned _ _ same, List.take_append_of_le_length short,
          List.drop_append_of_le_length short, List.append_assoc, List.singleton_append]
        have later := induction fun member => noReturn (List.mem_cons_of_mem _ (List.mem_of_mem_drop member))
        rcases later with ⟨⟨token, member, failed⟩, ⟨other, there, failedToo⟩⟩ | ⟨span, other, ends⟩
        · exact .inl ⟨⟨token, List.mem_cons_of_mem _ member, failed⟩,
            ⟨other, List.mem_cons_of_mem _ there, failedToo⟩⟩
        · refine .inr ⟨span, other, ?_⟩
          have stopAt : offset + byteLength (first :: rest.take more) = stop := rfl
          simp only [stopAt, List.filter_cons, ends.1, ends.2]
          split
          · exact ⟨rfl, rfl⟩
          · exact ⟨rfl, rfl⟩

end Lines

def Faulty (all : List Sight) : Prop :=
  ∃ sight ∈ all, sight.kind = .error

/-- Sights of two spellings of a source: alike one by one, unless there are errors in both. -/
def Respelled (first second : List Sight) : Prop :=
  (Faulty first ∧ Faulty second) ∨ List.Forall₂ Sight.Alike first second

theorem faulty_of_tokens (source : List Char) (faulty : FaultyTokens (rawTokens source)) :
    Faulty (sights source) := by
  obtain ⟨token, member, failed⟩ := faulty
  refine ⟨token.sight source, List.mem_map_of_mem (List.mem_filter.mpr ⟨member, ?_⟩), failed⟩
  simp [failed]

theorem Respelled.append {first second others more : List Sight} (one : Respelled first second)
    (two : Respelled others more) : Respelled (first ++ others) (second ++ more) := by
  have left : ∀ all rest : List Sight, Faulty all → Faulty (all ++ rest) :=
    fun all rest ⟨sight, member, failed⟩ => ⟨sight, List.mem_append_left rest member, failed⟩
  have right : ∀ all rest : List Sight, Faulty rest → Faulty (all ++ rest) :=
    fun all rest ⟨sight, member, failed⟩ => ⟨sight, List.mem_append_right all member, failed⟩
  rcases one with ⟨faulty, faultyToo⟩ | alike
  · exact .inl ⟨left _ _ faulty, left _ _ faultyToo⟩
  rcases two with ⟨faulty, faultyToo⟩ | alikeToo
  · exact .inl ⟨right _ _ faulty, right _ _ faultyToo⟩
  · exact .inr (List.rel_append alike alikeToo)

theorem Respelled.symm {first second : List Sight} (respelled : Respelled first second) :
    Respelled second first := by
  rcases respelled with faulty | alike
  · exact .inl faulty.symm
  · exact .inr (alike.flip.imp fun _ _ => Sight.Alike.symm)

theorem sights_of_ended_line (line ending : List Char) (span : Span)
    (solid : ∀ char ∈ ending.head?, char ≠ ' ' ∧ char ≠ '\t')
    (shown : (rawTokens (line ++ ending)).filter (·.kind ≠ .comment) =
      (rawTokens line).filter (·.kind ≠ .comment) ++ [⟨.newline, span⟩]) :
    ∃ last, sights (line ++ ending) = sights line ++ [last] ∧ last.kind = .newline := by
  have inside := sights_in_middle [] [] line ending (Or.inl rfl) (Or.inr solid)
  simp only [List.nil_append] at inside
  let last : Token := ⟨.newline, span⟩
  refine ⟨last.sight (line ++ ending), ?_, rfl⟩
  rw [sights, sightsOf, shown, List.map_append]
  exact congrArg₂ _ (sights_of_same _ _ _ _ inside) rfl

theorem returned_line (line : List Char) (noReturn : '\r' ∉ line) :
    Respelled (sights (line ++ ['\n'])) (sights (line ++ ['\r', '\n'])) := by
  rcases tokens_of_returned_line 0 line noReturn with ⟨faulty, faultyToo⟩ | ⟨span, other, plain, returned⟩
  · exact .inl ⟨faulty_of_tokens _ faulty, faulty_of_tokens _ faultyToo⟩
  · obtain ⟨last, shown, isNewline⟩ := sights_of_ended_line line ['\n'] span (by simp) plain
    obtain ⟨lastToo, shownToo, isNewlineToo⟩ :=
      sights_of_ended_line line ['\r', '\n'] other (by simp) returned
    rw [shown, shownToo]
    refine .inr (List.rel_append (List.forall₂_same.mpr fun _ _ => .inl rfl) ?_)
    exact .cons (.inr ⟨isNewline, isNewlineToo⟩) .nil

theorem with_returns_append (first second : List Char) :
    withReturns (first ++ second) = withReturns first ++ withReturns second :=
  List.flatMap_append

theorem with_returns_of_line (line : List Char) (oneLine : '\n' ∉ line) : withReturns line = line := by
  induction line with
  | nil => rfl
  | cons char rest induction =>
      rw [List.mem_cons, not_or] at oneLine
      rw [withReturns, List.flatMap_cons, if_neg (Ne.symm oneLine.1), List.singleton_append]
      exact congrArg _ (induction oneLine.2)

theorem returned_sights (source : List Char) (noReturn : '\r' ∉ source) :
    Respelled (sights source) (sights (withReturns source)) := by
  by_cases lines : '\n' ∈ source
  · obtain ⟨line, more, whole, oneLine⟩ := List.eq_append_cons_of_mem lines
    have shorter : more.length < source.length := by
      rw [whole, List.length_append, List.length_cons]
      omega
    rw [whole, List.mem_append, List.mem_cons, not_or, not_or] at noReturn
    have later := returned_sights more noReturn.2.2
    have first := returned_line line noReturn.1
    have edited : withReturns source = line ++ ['\r', '\n'] ++ withReturns more := by
      rw [whole, with_returns_append, with_returns_of_line line oneLine, List.append_assoc]
      rfl
    rw [edited, whole, List.append_cons, sights_append _ more (Or.inr ⟨line, rfl⟩),
      sights_append (line ++ ['\r', '\n']) _ (Or.inr ⟨line ++ ['\r'], by simp⟩)]
    exact first.append later
  · rw [with_returns_of_line source lines]
    exact .inr (List.forall₂_same.mpr fun _ _ => .inl rfl)
termination_by source.length

end ScriptWasm
