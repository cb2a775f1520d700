import ScriptWasm.Proofs.Token.Spelling

/-!
What the layout adds to the tokens. Indents, dedents and errors stand at the end of lines, and an
indent is only added where another line follows, so it is never the last token of its block.
-/

namespace ScriptWasm

set_option autoImplicit false

/-- A token that is neither the end of a line nor added by the layout. -/
structure TokenKind.IsContent (kind : TokenKind) : Prop where
  notNewline : kind ≠ .newline
  notIndent : kind ≠ .indent
  notDedent : kind ≠ .dedent
  notEnd : kind ≠ .endOfFile

theorem of_word_not_added (word : String) (kind : TokenKind)
    (added : kind = .indent ∨ kind = .dedent ∨ kind = .endOfFile) :
    TokenKind.ofWord word ≠ kind := by
  unfold TokenKind.ofWord
  rcases added with rfl | rfl | rfl <;> split <;> decide

theorem of_pair_not_added (first second : Char) (kind : TokenKind)
    (added : kind = .indent ∨ kind = .dedent ∨ kind = .endOfFile) :
    TokenKind.ofPair? first second ≠ some kind := by
  intro known
  have spelling := spelling_of_pair first second kind known
  rcases added with rfl | rfl | rfl <;> cases spelling

theorem of_single_not_added (char : Char) (kind : TokenKind)
    (added : kind = .indent ∨ kind = .dedent ∨ kind = .endOfFile) :
    (TokenKind.ofSingle? char).getD .error ≠ kind := by
  intro known
  cases single : TokenKind.ofSingle? char with
  | none =>
      rw [single] at known
      rcases added with rfl | rfl | rfl <;> cases known
  | some found =>
      rw [single] at known
      have spelling := spelling_of_single char found single
      rcases added with rfl | rfl | rfl <;> cases known <;> cases spelling

theorem token_at_not_added (first : Char) (rest : List Char) (kind : TokenKind)
    (added : kind = .indent ∨ kind = .dedent ∨ kind = .endOfFile) :
    (Lexer.tokenAt first rest).1 ≠ kind := by
  have plain : ∀ other : TokenKind, other ∈ [.newline, .number, .string, .error, .comment] →
      other ≠ kind := by
    rcases added with rfl | rfl | rfl <;> decide
  unfold Lexer.tokenAt
  split
  · exact plain _ (by simp)
  split
  · exact plain _ (by simp)
  split
  · exact of_word_not_added _ kind added
  split
  · exact plain _ (by simp)
  split
  · simp only
    split
    · exact plain _ (by simp)
    · exact plain _ (by simp)
  split
  · exact plain _ (by simp)
  split
  · rename_i found known
    obtain ⟨second, _, pair⟩ := Option.bind_eq_some_iff.mp known
    intro same
    exact of_pair_not_added first second kind added (pair.trans (congrArg some same))
  · exact of_single_not_added first kind added

theorem tokens_from_not_added (offset : Nat) (text : List Char) (kind : TokenKind)
    (added : kind = .indent ∨ kind = .dedent ∨ kind = .endOfFile) :
    ∀ token ∈ Lexer.tokensFrom offset text, token.kind ≠ kind := by
  fun_induction Lexer.tokensFrom offset text with
  | case1 offset => exact fun _ impossible => by cases impossible
  | case2 offset first rest skipped induction => exact induction
  | case3 offset first rest solid found more known stop induction =>
      intro token member
      rcases List.mem_cons.mp member with rfl | later
      · have here := token_at_not_added first rest kind added
        rw [known] at here
        exact here
      · exact induction token later

theorem raw_token_is_content (source : List Char) (token : Token) (member : token ∈ rawTokens source)
    (solid : token.kind ≠ .newline) : token.kind.IsContent where
  notNewline := solid
  notIndent := tokens_from_not_added 0 source .indent (Or.inl rfl) token member
  notDedent := tokens_from_not_added 0 source .dedent (Or.inr (Or.inl rfl)) token member
  notEnd := tokens_from_not_added 0 source .endOfFile (Or.inr (Or.inr rfl)) token member

/-- Lexemes of a source, where every indent is followed by the first token of a line. -/
def Laid (source : List Char) : List Lexeme → Prop
  | [] => True
  | first :: rest =>
      first.Sound source ∧
        (first.kind = .indent → ∃ next others, rest = next :: others ∧ next.kind.IsContent) ∧
        Laid source rest

theorem sound_of_laid (source : List Char) (lexemes : List Lexeme) (laid : Laid source lexemes) :
    ∀ lexeme ∈ lexemes, lexeme.Sound source := by
  induction lexemes with
  | nil => nofun
  | cons first rest induction =>
      intro lexeme member
      rcases List.mem_cons.mp member with rfl | later
      · exact laid.1
      · exact induction laid.2.2 lexeme later

theorem laid_of_suffix (source : List Char) (first rest : List Lexeme)
    (laid : Laid source (first ++ rest)) : Laid source rest := by
  induction first with
  | nil => exact laid
  | cons head tail induction => exact induction laid.2.2

theorem newlines_are_skipped (source : List Char) (blocks : List Nat) (tokens others : List Token)
    (next : Token) (line : tokens.dropWhile (·.kind = .newline) = next :: others) :
    ∃ later, Layout.tokensFrom source ⟨blocks, 0, true⟩ tokens = next :: later := by
  induction tokens with
  | nil => cases line
  | cons first rest induction =>
      rw [Layout.tokensFrom]
      by_cases blank : first.kind = .newline
      · rw [List.dropWhile_cons_of_pos (by simpa using blank)] at line
        rw [if_pos blank, if_pos (by simp)]
        exact induction line
      · rw [List.dropWhile_cons_of_neg (by simpa using blank)] at line
        cases line
        rw [if_neg blank]
        exact ⟨_, rfl⟩

/-- An added token has no text that could be wrong. -/
theorem added_is_sound (source : List Char) (kind : TokenKind) (span : Span)
    (free : kind.spelling? = none) (unnamed : kind ≠ .name) :
    ((Token.mk kind span).lexeme source).Sound source :=
  ⟨rfl, spells_free kind _ free unnamed⟩

/-- Without indents among them, sound lexemes can be put in front of laid ones. -/
theorem laid_append (source : List Char) (first rest : List Lexeme)
    (sound : ∀ lexeme ∈ first, lexeme.Sound source ∧ lexeme.kind ≠ .indent)
    (laid : Laid source rest) : Laid source (first ++ rest) := by
  induction first with
  | nil => exact laid
  | cons head tail induction =>
      have here := sound head (by simp)
      exact ⟨here.1, fun indents => absurd indents here.2,
        induction fun lexeme member => sound lexeme (by simp [member])⟩

theorem mem_of_drop_while {Item : Type} (test : Item → Bool) (list others : List Item) (next : Item)
    (kept : list.dropWhile test = next :: others) : next ∈ list ∧ test next = false := by
  have member : next ∈ list.dropWhile test := by
    rw [kept]
    exact List.mem_cons_self
  refine ⟨(List.dropWhile_suffix test).subset member, ?_⟩
  have head := List.head?_dropWhile_not test list
  rw [kept] at head
  simpa using head

theorem layout_tokens_from_laid (source : List Char) (state : Layout.State) (tokens : List Token)
    (sound : ∀ token ∈ tokens, (token.lexeme source).Sound source)
    (content : ∀ token ∈ tokens, token.kind ≠ .newline → token.kind.IsContent) :
    Laid source ((Layout.tokensFrom source state tokens).map (·.lexeme source)) := by
  -- What the layout adds is sound anyway. What has to be seen is that content follows an indent.
  induction tokens generalizing state with
  | nil =>
      rw [Layout.tokensFrom, List.map_append]
      apply laid_append
      · intro lexeme member
        simp only [List.map_map, List.mem_map, Function.comp_apply] at member
        obtain ⟨_, _, rfl⟩ := member
        exact ⟨added_is_sound source .dedent _ rfl (by decide), by simp [Token.lexeme]⟩
      · exact ⟨added_is_sound source .endOfFile _ rfl (by decide), by simp [Token.lexeme], trivial⟩
  | cons first rest induction =>
      have soundRest : ∀ token ∈ rest, (token.lexeme source).Sound source :=
        fun token member => sound token (by simp [member])
      have contentRest : ∀ token ∈ rest, token.kind ≠ .newline → token.kind.IsContent :=
        fun token member => content token (by simp [member])
      rw [Layout.tokensFrom]
      split
      · rename_i newline
        split
        · exact induction _ soundRest contentRest
        · simp only
          unfold Layout.shift
          split
          · rename_i deeper
            -- Only a line that is there can be deeper, and its first token is the content behind
            -- the indent.
            obtain ⟨next, others, line⟩ : ∃ next others,
                rest.dropWhile (·.kind = .newline) = next :: others := by
              unfold Layout.nextColumn at deeper
              split at deeper
              · omega
              · exact ⟨_, _, ‹_›⟩
            obtain ⟨later, follows⟩ := newlines_are_skipped source
              (Layout.nextColumn source rest :: state.blocks) rest others next line
            obtain ⟨member, solid⟩ := mem_of_drop_while _ _ _ _ line
            have indent := added_is_sound source .indent first.span rfl (by decide)
            have laid := induction ⟨Layout.nextColumn source rest :: state.blocks, 0, true⟩
              soundRest contentRest
            refine ⟨sound first (by simp), ?_, indent, ?_, laid⟩
            · intro impossible
              exact absurd (newline.symm.trans impossible) (by decide)
            · intro _
              change ∃ head tail, (Layout.tokensFrom source
                ⟨Layout.nextColumn source rest :: state.blocks, 0, true⟩ rest).map
                  (·.lexeme source) = head :: tail ∧ head.kind.IsContent
              rw [follows]
              exact ⟨next.lexeme source, _, rfl, contentRest next member (by simpa using solid)⟩
          · simp only [List.map_append, List.map_map, List.cons_append, List.append_assoc,
              List.map_cons]
            refine ⟨sound first (by simp), ?_, ?_⟩
            · intro impossible
              exact absurd (newline.symm.trans impossible) (by decide)
            · apply laid_append
              · intro lexeme member
                obtain ⟨_, _, rfl⟩ := List.mem_map.mp member
                exact ⟨added_is_sound source .dedent _ rfl (by decide), by simp [Token.lexeme]⟩
              · apply laid_append
                · intro lexeme member
                  split at member
                  · cases member
                  · rw [List.map_singleton, List.mem_singleton] at member
                    rw [member]
                    exact ⟨added_is_sound source .error _ rfl (by decide), by simp [Token.lexeme]⟩
                · exact induction _ soundRest contentRest
      · rename_i solid
        refine ⟨sound first (by simp), ?_, induction _ soundRest contentRest⟩
        intro indents
        exact absurd indents (content first (by simp) solid).notIndent

theorem layout_tokens_laid (source : List Char) :
    Laid source ((layoutTokens source).map (·.lexeme source)) := by
  apply layout_tokens_from_laid
  · intro token member
    exact raw_tokens_sound source token (List.mem_of_mem_filter member)
  · intro token member
    exact raw_token_is_content source token (List.mem_of_mem_filter member)

end ScriptWasm
