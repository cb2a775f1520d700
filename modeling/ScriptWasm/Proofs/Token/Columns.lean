import ScriptWasm.Proofs.Token.Rows
import ScriptWasm.Proofs.Token.WellNested

/-!
Where lines begin. After a newline of a layout and the change of blocks behind it, the next token is
the first one on its line, and its column is that of the innermost open block. What was read of a
layout and what is left are tied by the columns of the open blocks alone.
-/

namespace ScriptWasm

set_option autoImplicit false

/-- A byte of a source with only blanks between the start of its line and itself. -/
def LeadsLine (source : List Char) (offset : Nat) : Prop :=
  ∃ before blanks after, source = before ++ blanks ++ after ∧ LineStart before ∧
    (∀ char ∈ blanks, Lexer.isSkipped char = true) ∧ offset = byteLength (before ++ blanks)

section Characters

theorem of_word_ends_no_line (word : String) (kind : TokenKind)
    (special : kind = .newline ∨ kind = .comment) : TokenKind.ofWord word ≠ kind := by
  unfold TokenKind.ofWord
  rcases special with rfl | rfl <;> split <;> decide

/-- The tokens at the end of a line: a newline of one or two characters, or a comment. -/
theorem line_end_token (first : Char) (rest : List Char)
    (special : (Lexer.tokenAt first rest).1 = .newline ∨ (Lexer.tokenAt first rest).1 = .comment) :
    (first = '\n' ∧ Lexer.tokenAt first rest = (.newline, 0)) ∨
    (first = '\r' ∧ rest.head? = some '\n' ∧ Lexer.tokenAt first rest = (.newline, 1)) ∨
    Lexer.tokenAt first rest = (.comment, (rest.takeWhile (· ≠ '\n')).length) := by
  generalize found : Lexer.tokenAt first rest = token at special ⊢
  have plain : ∀ kind : TokenKind, kind ∈ [.number, .string, .error] →
      ¬(kind = .newline ∨ kind = .comment) := by decide
  -- The branches are those of the lexer, in its order. None but the three of the statement gives a
  -- newline or a comment.
  unfold Lexer.tokenAt at found
  split at found
  · rename_i isEnd
    exact .inl ⟨isEnd, found.symm⟩
  split at found
  · rename_i isReturn
    rw [Bool.and_eq_true, decide_eq_true_eq, decide_eq_true_eq] at isReturn
    exact .inr (.inl ⟨isReturn.1, isReturn.2, found.symm⟩)
  split at found
  · rw [← found] at special
    exact absurd rfl (of_word_ends_no_line _ _ special)
  split at found
  · rw [← found] at special
    exact absurd special (plain _ (by simp))
  split at found
  · rw [← found] at special
    refine absurd special (plain _ ?_)
    simp only
    split <;> simp
  split at found
  · exact .inr (.inr found.symm)
  split at found
  · rename_i kind known
    obtain ⟨second, _, pair⟩ := Option.bind_eq_some_iff.mp known
    have spelling := spelling_of_pair first second kind pair
    rw [← found] at special
    rcases special with rfl | rfl <;> cases spelling
  · rw [← found] at special
    cases single : TokenKind.ofSingle? first with
    | none =>
        rw [single] at special
        exact absurd special (plain _ (by simp))
    | some kind =>
        rw [single] at special
        have spelling := spelling_of_single first kind single
        rcases special with isNewline | isComment
        · cases isNewline
          cases spelling
        · cases isComment
          cases spelling

end Characters

section Lines

variable (source : List Char)

/-- Tokens of which those that come first on their line stand behind blanks only. In a clean place no
token of the line was read. -/
@[simp] def Leading (clean : Bool) : List Token → Prop
  | [] => True
  | token :: rest =>
      if token.kind = .newline then Leading true rest
      else if token.kind = .comment then Leading clean rest
      else (clean = true → LeadsLine source token.span.start) ∧ Leading false rest

variable {source}

theorem Leading.weaken {clean : Bool} {tokens : List Token} (leading : Leading source clean tokens) :
    Leading source false tokens := by
  induction tokens with
  | nil => trivial
  | cons token rest induction =>
      rw [Leading] at leading ⊢
      split
      · rename_i newline
        rwa [if_pos newline] at leading
      · rename_i solid
        rw [if_neg solid] at leading
        split
        · rename_i comment
          rw [if_pos comment] at leading
          exact induction leading
        · rename_i noComment
          rw [if_neg noComment] at leading
          exact ⟨nofun, leading.2⟩

theorem Leading.without_comments {clean : Bool} {tokens : List Token}
    (leading : Leading source clean tokens) :
    Leading source clean (tokens.filter (·.kind ≠ .comment)) := by
  induction tokens generalizing clean with
  | nil => trivial
  | cons token rest induction =>
      rw [Leading] at leading
      by_cases comment : token.kind = .comment
      · rw [if_neg (by rw [comment]; decide), if_pos comment] at leading
        rw [List.filter_cons_of_neg (by simpa using comment)]
        exact induction leading
      · rw [List.filter_cons_of_pos (by simpa using comment), Leading]
        split
        · rename_i newline
          rw [if_pos newline] at leading
          exact induction leading
        · rename_i solid
          rw [if_neg solid, if_neg comment] at leading
          exact ⟨leading.1, induction leading.2⟩

/-- After a token that is no comment, a newline or nothing makes the place clean. -/
theorem Leading.at_line_end {text : List Char} {offset : Nat}
    (ends : ∀ char ∈ text.head?, char = '\n')
    (leading : Leading source false (Lexer.tokensFrom offset text)) (clean : Bool) :
    Leading source clean (Lexer.tokensFrom offset text) := by
  cases text with
  | nil =>
      rw [Lexer.tokensFrom]
      trivial
  | cons first rest =>
      obtain rfl := ends first rfl
      rw [tokens_of_line_end] at leading ⊢
      exact leading

theorem tokens_from_leading (before text : List Char) (whole : source = before ++ text)
    (clean : Bool) (place : clean = true → ∃ earlier blanks, before = earlier ++ blanks ∧
      LineStart earlier ∧ ∀ char ∈ blanks, Lexer.isSkipped char = true) :
    Leading source clean (Lexer.tokensFrom (byteLength before) text) := by
  generalize start : byteLength before = offset
  -- The induction is on the scan. A place is clean as long as nothing but blanks was skipped since
  -- the line began.
  fun_induction Lexer.tokensFrom offset text generalizing before clean with
  | case1 offset => trivial
  | case2 offset first rest skipped induction =>
      refine induction (before ++ [first]) (by rw [whole, List.append_assoc]; rfl) clean ?_
        (by rw [byte_length_append, start, byteLength, byteLength, Nat.add_zero])
      intro isClean
      obtain ⟨earlier, blanks, rfl, starts, all⟩ := place isClean
      refine ⟨earlier, blanks ++ [first], List.append_assoc .., starts, fun char member => ?_⟩
      rcases List.mem_append.mp member with inside | last
      · exact all char inside
      · rwa [List.mem_singleton.mp last]
  | case3 offset first rest solid kind more found stop induction =>
      have cut : first :: rest = (first :: rest.take more) ++ rest.drop more := by
        rw [List.cons_append, List.take_append_drop]
      have later := fun clean => induction (before ++ (first :: rest.take more))
        (by rw [whole, List.append_assoc, ← cut]) clean
      have stopAt : byteLength (before ++ (first :: rest.take more)) = stop := by
        rw [byte_length_append, start]
      have inside : Leading source false (Lexer.tokensFrom stop (rest.drop more)) :=
        later false (fun isClean => absurd isClean Bool.false_ne_true) stopAt
      rw [Leading]
      -- A newline makes the next place clean, a comment keeps it as it was, and any other token is
      -- the first one of its line.
      split
      · rename_i newline
        refine later true (fun _ => ⟨_, [], (List.append_nil _).symm, .inr ?_,
          List.forall_mem_nil _⟩) stopAt
        have special := line_end_token first rest (.inl (by rw [found]; exact newline))
        rw [found] at special
        obtain ⟨rfl, same⟩ | ⟨rfl, next, same⟩ | same := special
        · rw [(Prod.mk.inj same).2]
          exact ⟨before, rfl⟩
        · obtain ⟨others, rfl⟩ : ∃ others, rest = '\n' :: others := by
            cases rest with
            | nil => cases next
            | cons second others =>
                cases next
                exact ⟨others, rfl⟩
          rw [(Prod.mk.inj same).2]
          exact ⟨before ++ ['\r'], by simp⟩
        · exact absurd ((Prod.mk.inj same).1.symm.trans newline) (by decide)
      split
      · rename_i notNewline comment
        have special := line_end_token first rest (.inr (by rw [found]; exact comment))
        rw [found] at special
        refine inside.at_line_end ?_ clean
        obtain ⟨_, same⟩ | ⟨_, _, same⟩ | same := special
        · exact absurd (Prod.mk.inj same).1 notNewline
        · exact absurd (Prod.mk.inj same).1 notNewline
        · intro char head
          have left : rest.drop more = rest.dropWhile (· ≠ '\n') := by
            rw [(Prod.mk.inj same).2]
            nth_rewrite 2 [← List.takeWhile_append_dropWhile (p := (· ≠ '\n')) (l := rest)]
            exact List.drop_left
          rw [left] at head
          have stopped := List.head?_dropWhile_not (· ≠ '\n') rest
          rw [Option.mem_def.mp head] at stopped
          simpa using stopped
      · refine ⟨fun isClean => ?_, inside⟩
        obtain ⟨earlier, blanks, rfl, starts, all⟩ := place isClean
        exact ⟨earlier, blanks, first :: rest, whole, starts, all, start.symm⟩

/-- The tokens of a source start their lines behind blanks only. -/
theorem contents_leading (source : List Char) : Leading source true (Layout.contents source) :=
  (tokens_from_leading [] source rfl true fun _ => ⟨[], [], rfl, .inl rfl, nofun⟩).without_comments

end Lines

/-- A byte at which a line begins, at the given column. -/
structure BeginsLine (source : List Char) (column offset : Nat) : Prop where
  leads : LeadsLine source offset
  column : Layout.columnOf source offset = column

/-- Lexemes whose lines begin at the columns of the open blocks, the innermost one first. In a fresh
place no lexeme of the line was read. -/
@[simp] def Columned (source : List Char) : List Nat → Bool → List Lexeme → Prop
  | _, _, [] => True
  | blocks, fresh, lexeme :: rest =>
      if lexeme.kind = .newline then Columned source blocks true rest
      else if lexeme.kind = .indent then
        ∃ column, Layout.innermost blocks < column ∧ Columned source (column :: blocks) true rest
      else if lexeme.kind = .dedent then
        ∃ column outer, blocks = column :: outer ∧ Columned source outer true rest
      else if lexeme.kind = .endOfFile then True
      else (fresh = true → BeginsLine source (Layout.innermost blocks) lexeme.span.start) ∧
        Columned source blocks false rest

section Columned

variable {source : List Char} {blocks : List Nat} {fresh : Bool} {lexeme : Lexeme}
  {rest : List Lexeme}

theorem columned_newline (isNewline : lexeme.kind = .newline) :
    Columned source blocks fresh (lexeme :: rest) ↔ Columned source blocks true rest := by
  rw [Columned, if_pos isNewline]

theorem columned_indent (isIndent : lexeme.kind = .indent) :
    Columned source blocks fresh (lexeme :: rest) ↔
      ∃ column, Layout.innermost blocks < column ∧ Columned source (column :: blocks) true rest := by
  rw [Columned, if_neg (by rw [isIndent]; decide), if_pos isIndent]

theorem columned_dedent (isDedent : lexeme.kind = .dedent) :
    Columned source blocks fresh (lexeme :: rest) ↔
      ∃ column outer, blocks = column :: outer ∧ Columned source outer true rest := by
  rw [Columned, if_neg (by rw [isDedent]; decide), if_neg (by rw [isDedent]; decide), if_pos isDedent]

theorem columned_end (isEnd : lexeme.kind = .endOfFile) :
    Columned source blocks fresh (lexeme :: rest) := by
  rw [Columned, if_neg (by rw [isEnd]; decide), if_neg (by rw [isEnd]; decide),
    if_neg (by rw [isEnd]; decide), if_pos isEnd]
  trivial

theorem columned_content (content : lexeme.kind.IsContent) :
    Columned source blocks fresh (lexeme :: rest) ↔
      (fresh = true → BeginsLine source (Layout.innermost blocks) lexeme.span.start) ∧
        Columned source blocks false rest := by
  rw [Columned, if_neg content.notNewline, if_neg content.notIndent, if_neg content.notDedent,
    if_neg content.notEnd]

/-- Less is asked inside a line. -/
theorem Columned.weaken {lexemes : List Lexeme} (columned : Columned source blocks true lexemes) :
    Columned source blocks fresh lexemes := by
  cases lexemes with
  | nil => trivial
  | cons lexeme rest =>
      rw [Columned] at columned ⊢
      split at columned
      · rwa [if_pos ‹_›]
      split at columned
      · rwa [if_neg ‹_›, if_pos ‹_›]
      split at columned
      · rwa [if_neg ‹_›, if_neg ‹_›, if_pos ‹_›]
      split at columned
      · rwa [if_neg ‹_›, if_neg ‹_›, if_neg ‹_›, if_pos ‹_›]
      · rw [if_neg ‹_›, if_neg ‹_›, if_neg ‹_›, if_neg ‹_›]
        exact ⟨fun _ => columned.1 rfl, columned.2⟩

end Columned

section Layouts

variable (source : List Char)

theorem columned_after_dedents (closed outer : List Nat) (span : Span) (rest : List Lexeme)
    (columned : Columned source outer true rest) :
    Columned source (closed ++ outer) true
      (((closed.map fun _ => Token.mk .dedent span).map (·.lexeme source)) ++ rest) := by
  induction closed with
  | nil => exact columned
  | cons column others induction =>
      exact (columned_dedent rfl).mpr ⟨column, others ++ outer, rfl, induction⟩

theorem columned_after_shift (blocks : List Nat) (column : Nat) (span : Span) (rest : List Lexeme)
    (fits : TokenKind.error ∉ (Layout.shift blocks column).2)
    (columned : Columned source (Layout.shift blocks column).1 true rest) :
    Columned source blocks true
      (((Layout.shift blocks column).2.map (Token.mk · span)).map (·.lexeme source) ++ rest) := by
  obtain ⟨deeper, same⟩ | ⟨closed, outer, rfl, same⟩ := Layout.shift_cases blocks column
  · rw [same] at columned ⊢
    exact (columned_indent rfl).mpr ⟨column, deeper, columned⟩
  · rw [same] at fits columned ⊢
    have reached : Layout.innermost outer = column := by
      by_contra missed
      rw [if_neg missed] at fits
      exact fits (by simp)
    have closing := columned_after_dedents source closed outer span rest columned
    rw [if_pos reached, List.append_nil]
    simp only [List.map_map] at closing ⊢
    exact closing

theorem layout_columned (state : Layout.State) (tokens : List Token)
    (content : ∀ token ∈ tokens, token.kind ≠ .newline → token.kind.IsContent)
    (solid : ∀ token ∈ tokens, token.kind ≠ .comment)
    (sound : ∀ token ∈ Layout.tokensFrom source state tokens, token.kind ≠ .error)
    (leading : Leading source state.lineEnded tokens)
    (fits : state.lineEnded = true →
      Layout.innermost state.blocks = Layout.nextColumn source tokens) :
    Columned source state.blocks state.lineEnded
      ((Layout.tokensFrom source state tokens).map (·.lexeme source)) := by
  induction tokens generalizing state with
  | nil =>
      rw [Layout.tokens_from_end, Layout.closing, List.map_append]
      have closed := columned_after_dedents source state.blocks []
        ⟨byteLength source, byteLength source⟩
        [(Token.mk .endOfFile ⟨byteLength source, byteLength source⟩).lexeme source]
        (columned_end rfl)
      rw [List.append_nil] at closed
      exact closed.weaken
  | cons token rest induction =>
      have later := fun next => induction next (fun token member => content token (by simp [member]))
        (fun token member => solid token (by simp [member]))
      rw [Layout.tokens_from_step] at sound ⊢
      rw [Leading] at leading
      -- A newline is dropped, or ends its line and changes the blocks; any other token is kept.
      obtain ⟨newline, quiet, same⟩ | ⟨newline, _, inside, same⟩ | ⟨going, same⟩ :=
        Layout.step_cases source state token rest
      · rw [same] at sound ⊢
        rw [if_pos newline] at leading
        have passed : Layout.nextColumn source (token :: rest) = Layout.nextColumn source rest := by
          rw [Layout.nextColumn, Layout.nextColumn,
            List.dropWhile_cons_of_pos (by simpa using newline)]
        rw [passed] at fits
        refine later state sound ?_ fits
        cases state.lineEnded with
        | true => exact leading
        | false => exact leading.weaken
      · rw [same] at sound ⊢
        rw [if_pos newline] at leading
        -- Without an error token the column of the next line is one of the open blocks.
        have known : TokenKind.error ∉
            (Layout.shift state.blocks (Layout.nextColumn source rest)).2 := by
          intro member
          refine sound ⟨.error, token.span⟩ ?_ rfl
          exact List.mem_append_left _ (List.mem_cons_of_mem _ (List.mem_map_of_mem member))
        have reached : Layout.innermost
            (Layout.shift state.blocks (Layout.nextColumn source rest)).1 =
              Layout.nextColumn source rest := by
          obtain column | ⟨changes, missed⟩ :=
            Layout.shift_reaches_column state.blocks (Layout.nextColumn source rest)
          · exact column
          · exact absurd (by rw [missed]; simp) known
        have line := later ⟨_, 0, true⟩
          (fun token member => sound token (List.mem_append_right _ member)) leading fun _ => reached
        rw [List.cons_append, List.map_cons, List.map_append]
        exact (columned_newline newline).mpr (columned_after_shift source _ _ _ _ known line)
      · rw [same] at sound ⊢
        rw [if_neg going, if_neg (solid token (by simp))] at leading
        have line := later ⟨state.blocks, _, false⟩
          (fun token member => sound token (List.mem_append_right _ member)) leading.2
          (fun fresh => absurd fresh Bool.false_ne_true)
        have known : (token.lexeme source).kind.IsContent := content token (by simp) going
        refine (columned_content known).mpr ⟨fun fresh => ?_, line⟩
        have column : Layout.nextColumn source (token :: rest) =
            Layout.columnOf source token.span.start := by
          rw [Layout.nextColumn, List.dropWhile_cons_of_neg (by simpa using going)]
        exact ⟨leading.1 fresh, by rw [fits fresh, column]; rfl⟩

/-- Where the layout reports nothing, all lines of a source but the first begin at the column of the
innermost open block. -/
theorem source_columned (sound : ∀ token ∈ layoutTokens source, token.kind ≠ .error) :
    Columned source [] false ((layoutTokens source).map (·.lexeme source)) := by
  refine layout_columned source .start (Layout.contents source) Layout.contents_are_content ?_ sound
    (contents_leading source).weaken nofun
  intro token member
  simpa using (List.mem_filter.mp member).2

/-- A layout that does not start with a newline starts with the first token of a line, and all its
newlines come later. -/
theorem first_token_leads (first : Token) (rest : List Token)
    (layout : layoutTokens source = first :: rest) (content : first.kind.IsContent) :
    LeadsLine source first.span.start ∧
      ∀ token ∈ layoutTokens source, token.kind = .newline → first.span.start < token.span.stop := by
  have start : layoutTokens source =
      Layout.tokensFrom source .start (Layout.contents source) := rfl
  have leading := contents_leading source
  have ordered : InOrder ((Layout.contents source).map Token.span) :=
    (raw_tokens_in_order source).sublist (List.filter_sublist.map _)
  have filled : ∀ token ∈ Layout.contents source, token.span.start < token.span.stop :=
    fun token member => tokens_from_filled 0 source token (List.mem_of_mem_filter member)
  have newlines := Layout.newline_of_layout source .start (Layout.contents source)
  rw [← start] at newlines
  cases whole : Layout.contents source with
  | nil =>
      rw [layout, whole] at start
      exact absurd (congrArg Token.kind (List.cons.inj start).1) content.notEnd
  | cons token others =>
      rw [whole, Layout.tokens_from_step, layout] at start
      obtain ⟨_, quiet, _⟩ | ⟨newline, _, _, same⟩ | ⟨solid, same⟩ :=
        Layout.step_cases source .start token others
      · simp [Layout.State.start] at quiet
      · rw [same] at start
        obtain ⟨rfl, _⟩ := List.cons.inj start
        exact absurd newline content.notNewline
      · rw [same] at start
        obtain ⟨rfl, _⟩ := List.cons.inj start
        have noComment : first.kind ≠ .comment := by
          have member : first ∈ Layout.contents source := by simp [whole]
          simpa using (List.mem_filter.mp member).2
        rw [whole, Leading, if_neg solid, if_neg noComment] at leading
        refine ⟨leading.1 rfl, fun token member newline => ?_⟩
        have there := newlines token member newline
        have here := filled first (by simp [whole])
        have size := filled token there
        rw [whole] at there ordered
        rcases List.mem_cons.mp there with rfl | later
        · exact absurd newline solid
        · have after := (List.pairwise_cons.mp ordered).1 token.span (List.mem_map_of_mem later)
          omega

end Layouts

end ScriptWasm
